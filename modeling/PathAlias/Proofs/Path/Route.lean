import PathAlias.Path.Relative
import PathAlias.Proofs.Path.Excursion

/-!
Contract: a route leads to its destination.

Owns:
- the common start of two lists of names, and that a start common to both can be
  left out of a route;
- the relative route between absolute clean paths, as parents and then names;
- the steps of texts that are put together;
- reading the route back from its text, where the destination is well-formed
  text, and that no backslash comes into the route to a plain one.

Does not own: the mark in front of a route, or where destinations come from.
-/

set_option autoImplicit false

namespace PathAlias.Path

/-! ## The common start -/

theorem commonLength_le_left (left right : List Component) :
    commonLength left right ≤ left.length := by
  induction left generalizing right with
  | nil => exact Nat.zero_le _
  | cons first rest inductionHypothesis =>
      cases right with
      | nil => exact Nat.zero_le _
      | cons other others =>
          unfold commonLength
          split
          · exact Nat.succ_le_succ (inductionHypothesis others)
          · exact Nat.zero_le _

theorem take_commonLength (left right : List Component) :
    left.take (commonLength left right) = right.take (commonLength left right) := by
  induction left generalizing right with
  | nil => simp [commonLength]
  | cons first rest inductionHypothesis =>
      cases right with
      | nil => simp [commonLength]
      | cons other others =>
          unfold commonLength
          split
          · rename_i same
            rw [List.take_succ_cons, List.take_succ_cons, same, inductionHypothesis]
          · rfl

theorem commonLength_append (front left right : List Component) :
    commonLength (front ++ left) (front ++ right) = front.length + commonLength left right := by
  induction front with
  | nil => exact (Nat.zero_add _).symm
  | cons first rest inductionHypothesis =>
      rw [List.cons_append, List.cons_append, commonLength, if_pos rfl, inductionHypothesis,
        List.length_cons]
      omega

def sharedNames (left right : List (List UInt8)) : Nat :=
  commonLength (left.map .name) (right.map .name)

theorem sharedNames_le_left (left right : List (List UInt8)) :
    sharedNames left right ≤ left.length := by
  have bound := commonLength_le_left (left.map .name) (right.map .name)
  rwa [List.length_map] at bound

theorem take_sharedNames (left right : List (List UInt8)) :
    left.take (sharedNames left right) = right.take (sharedNames left right) := by
  have same := take_commonLength (left.map .name) (right.map .name)
  rw [← List.map_take, ← List.map_take] at same
  exact map_name_injective same

theorem sharedNames_append (front left right : List (List UInt8)) :
    sharedNames (front ++ left) (front ++ right) = front.length + sharedNames left right := by
  unfold sharedNames
  rw [List.map_append, List.map_append, commonLength_append, List.length_map]

/-- Two lists of names share a name at their start exactly when the first names
of both are one. -/
theorem sharedNames_eq_zero_iff {left right : List (List UInt8)} :
    sharedNames left right = 0 ↔ left = [] ∨ left.head? ≠ right.head? := by
  cases left with
  | nil => exact iff_of_true rfl (Or.inl rfl)
  | cons first rest =>
      cases right with
      | nil => exact iff_of_true rfl (Or.inr (by simp))
      | cons other others =>
          by_cases same : first = other
          · simp [sharedNames, commonLength, same]
          · simp [sharedNames, commonLength, same]

theorem ne_nil_of_sharedNames {left right : List (List UInt8)}
    (shared : sharedNames left right ≠ 0) : right ≠ [] := by
  rintro rfl
  apply shared
  rw [sharedNames_eq_zero_iff, List.head?_nil, Ne, List.head?_eq_none_iff]
  exact em _

/-! ## The route -/

/-- The steps from one place to another: up to where the two part, then down. -/
def routeSteps (origin destination : List (List UInt8)) : List Component :=
  List.replicate (origin.length - sharedNames origin destination) .parent
    ++ (destination.drop (sharedNames origin destination)).map .name

theorem isSegment_of_mem_routeSteps (origin : List (List UInt8))
    {destination : List (List UInt8)} (proper : ∀ bytes ∈ destination, IsName bytes) :
    ∀ step ∈ routeSteps origin destination, IsSegment step :=
  isSegment_of_mem_parents_names _ fun bytes member =>
    proper bytes (List.mem_of_mem_drop member)

theorem foldl_walk_routeSteps (origin destination : List (List UInt8)) :
    (routeSteps origin destination).foldl walk origin = destination := by
  have bound := sharedNames_le_left origin destination
  unfold routeSteps
  rw [List.foldl_append, foldl_walk_parents, foldl_walk_names,
    show origin.length - (origin.length - sharedNames origin destination)
      = sharedNames origin destination by omega,
    take_sharedNames, List.take_append_drop]

/-- Names in front of both places do not show in the route between them. -/
theorem routeSteps_append (front left right : List (List UInt8)) :
    routeSteps (front ++ left) (front ++ right) = routeSteps left right := by
  unfold routeSteps
  rw [sharedNames_append, List.length_append, Nat.add_sub_add_left, List.drop_append,
    List.drop_eq_nil_of_le (Nat.le_add_right _ _), List.nil_append, Nat.add_sub_cancel_left]

theorem routeSteps_of_unshared {origin destination : List (List UInt8)}
    (unshared : sharedNames origin destination = 0) :
    routeSteps origin destination
      = List.replicate origin.length .parent ++ destination.map .name := by
  unfold routeSteps
  rw [unshared]
  rfl

/-- From the top a route only goes down. -/
@[simp]
theorem routeSteps_nil (destination : List (List UInt8)) :
    routeSteps [] destination = destination.map .name :=
  routeSteps_of_unshared rfl

/-- A route goes up first, unless its destination lies below its origin. -/
theorem routeSteps_cases (origin destination : List (List UInt8)) :
    (¬ origin <+: destination ∧ ∃ others, routeSteps origin destination = .parent :: others)
      ∨ ∃ below, destination = origin ++ below ∧ routeSteps origin destination
        = below.map .name := by
  by_cases within : origin <+: destination
  · right
    obtain ⟨below, rfl⟩ := within
    refine ⟨below, rfl, ?_⟩
    have cancelled := routeSteps_append origin [] below
    rw [List.append_nil] at cancelled
    rw [cancelled, routeSteps_nil]
  · left
    have parted : sharedNames origin destination < origin.length := by
      apply Nat.lt_of_le_of_ne (sharedNames_le_left origin destination)
      intro whole
      have same := take_sharedNames origin destination
      rw [whole, List.take_length] at same
      exact within (same ▸ List.take_prefix _ _)
    obtain ⟨ups, isUps⟩ := Nat.exists_eq_succ_of_ne_zero (Nat.sub_ne_zero_of_lt parted)
    unfold routeSteps
    rw [isUps, List.replicate_succ, List.cons_append]
    exact ⟨within, _, rfl⟩

theorem relative_ofNames {origin destination : List (List UInt8)}
    (originProper : ∀ bytes ∈ origin, IsName bytes)
    (destinationProper : ∀ bytes ∈ destination, IsName bytes) :
    relative (ofNames origin) (ofNames destination)
      = Separated.join '/' ((routeSteps origin destination).map Component.displayText) := by
  have shared : commonLength (ofNames origin).components (ofNames destination).components
      = sharedNames origin destination + 1 := by
    rw [components_ofNames originProper, components_ofNames destinationProper]
    simp [commonLength, sharedNames]
  unfold relative
  rw [shared, components_ofNames originProper, components_ofNames destinationProper]
  simp only [routeText, routeSteps, List.map_append, List.map_replicate, List.length_cons,
    List.length_map, Nat.add_sub_add_right, List.drop_succ_cons, List.map_drop]
  rfl

/-- Below a directory, a route is found between places that share a name at their
start. -/
theorem relative_of_shared {origin destination : Path} {originNames names : List (List UInt8)}
    (isOrigin : origin.components = originNames.map .name)
    (isDestination : destination.components = names.map .name)
    (shared : sharedNames originNames names ≠ 0) :
    relative origin destination
      = Separated.join '/' ((routeSteps originNames names).map Component.displayText) := by
  obtain ⟨others, isShared⟩ := Nat.exists_eq_succ_of_ne_zero shared
  unfold relative
  rw [isOrigin, isDestination, show commonLength (originNames.map .name) (names.map .name)
    = others + 1 from isShared]
  simp only [routeText, routeSteps, isShared, List.map_append, List.map_replicate,
    List.length_map, List.map_drop]
  rfl

/-- Between paths that share no component, the destination stands for the
route. -/
theorem relative_of_apart {origin destination : Path}
    (apart : commonLength origin.components destination.components = 0) :
    relative origin destination = (ofComponents destination.components).slashText := by
  unfold relative
  rw [apart]
  rfl

/-! ## Reading a route back -/

/-- A path in well-formed text that holds no backslash. -/
def IsPlain (path : Path) : Prop :=
  ∃ text, Utf8.decode? path.bytes = some text ∧ '\\' ∉ text

/-- The names of a path in well-formed text are the encoded pieces of that text
between its slashes. -/
theorem exists_texts_of_decode? {names : List (List UInt8)}
    (proper : ∀ bytes ∈ names, IsName bytes) {text : Text}
    (decoded : Utf8.decode? (ofNames names).bytes = some text) :
    ∃ texts : List Text, names = texts.map Utf8.encode
      ∧ ∀ piece ∈ texts, piece ∈ Separated.split '/' text := by
  have encoded : (ofNames names).bytes = Utf8.encode text := Utf8.decode?_eq_some_iff.1 decoded
  have spelled : ∀ bytes ∈ names, ∃ piece ∈ Separated.split '/' text,
      bytes = Utf8.encode piece := by
    intro bytes member
    have isStep : Component.name bytes ∈ (ofNames names).steps := by
      rw [steps_ofNames proper]
      exact List.mem_map_of_mem member
    rcases step_cases isStep with impossible | ⟨segment, present, isName, same⟩
    · cases impossible
    · cases same
      rw [segments, encoded, Utf8.split_encode '/' (by rfl) (by decide)] at present
      obtain ⟨piece, isPiece, rfl⟩ := List.mem_map.1 present
      exact ⟨piece, isPiece, rfl⟩
  refine ⟨names.map Utf8.decodeLossy, ?_, ?_⟩
  · rw [List.map_map]
    refine (List.map_id names).symm.trans (List.map_congr_left fun bytes member => ?_)
    obtain ⟨piece, isPiece, rfl⟩ := spelled bytes member
    simp [Utf8.decodeLossy_encode]
  · intro piece member
    obtain ⟨bytes, present, rfl⟩ := List.mem_map.1 member
    obtain ⟨piece, isPiece, rfl⟩ := spelled bytes present
    rwa [Utf8.decodeLossy_encode]

/-- The names of a plain path are encoded texts without either slash. -/
theorem exists_texts_of_isPlain {names : List (List UInt8)}
    (proper : ∀ bytes ∈ names, IsName bytes) (plain : IsPlain (ofNames names)) :
    ∃ texts : List Text, names = texts.map Utf8.encode
      ∧ ∀ piece ∈ texts, '/' ∉ piece ∧ '\\' ∉ piece := by
  obtain ⟨text, decoded, withoutBackslash⟩ := plain
  obtain ⟨texts, rfl, isPiece⟩ := exists_texts_of_decode? proper decoded
  refine ⟨texts, rfl, fun piece member => ⟨?_, ?_⟩⟩
  · exact Separated.not_mem_of_mem_split (isPiece piece member)
  · exact fun backslash =>
      withoutBackslash (Separated.mem_of_mem_split (isPiece piece member) backslash)

theorem segments_ofText (text : Text) :
    (ofText text).segments = (Separated.split '/' text).map Utf8.encode :=
  Utf8.split_encode '/' (by rfl) (by decide) text

/-- A text spells an absolute path exactly when it begins with a slash. -/
theorem isAbsolute_ofText_iff {text : Text} :
    (ofText text).isAbsolute = true ↔ text.head? = some '/' := by
  cases text with
  | nil => exact iff_of_false (by decide) (by decide)
  | cons symbol rest =>
      rw [isAbsolute, decide_eq_true_iff, ofText, Utf8.encode_cons, List.head?_cons,
        Option.some.injEq]
      constructor
      · intro begins
        cases spelled : String.utf8EncodeChar symbol with
        | nil =>
            have empty : Utf8.encode [symbol] = [] := by rw [Utf8.encode_cons, spelled]; rfl
            exact absurd (Utf8.encode_eq_nil_iff.1 empty) (by simp)
        | cons first others =>
            rw [spelled] at begins
            have isSlash : slash ∈ String.utf8EncodeChar symbol := by
              rw [spelled, ← Option.some.inj begins]
              exact List.mem_cons_self
            exact (Utf8.encodeChar_of_mem_ascii isSlash (by decide)).1
      · rintro rfl
        rfl

theorem isAbsolute_ofText_append {front : Text} (nonempty : front ≠ []) (back : Text) :
    (ofText (front ++ back)).isAbsolute = (ofText front).isAbsolute := by
  rw [Bool.eq_iff_iff, isAbsolute_ofText_iff, isAbsolute_ofText_iff,
    List.head?_append_of_ne_nil _ nonempty]

theorem steps_ofText_append (front back : Text) :
    (ofText (front ++ '/' :: back)).steps = (ofText front).steps ++ (ofText back).steps := by
  unfold steps
  rw [segments_ofText, segments_ofText, segments_ofText, Separated.split_append_cons,
    List.map_append, List.filterMap_append]

/-- Text that is joined from pieces has the steps of each piece in turn. -/
theorem steps_ofText_join (pieces : List Text) :
    (ofText (Separated.join '/' pieces)).steps
      = pieces.flatMap fun piece => (ofText piece).steps := by
  induction pieces with
  | nil => rfl
  | cons piece others inductionHypothesis =>
      by_cases last : others = []
      · subst last
        simp [Separated.join]
      · rw [Separated.join_cons_of_ne_nil '/' piece last, steps_ofText_append,
          inductionHypothesis, List.flatMap_cons]

theorem displayText_routeSteps (origin : List (List UInt8)) (texts : List Text) :
    (routeSteps origin (texts.map Utf8.encode)).map Component.displayText
      = List.replicate (origin.length - sharedNames origin (texts.map Utf8.encode)) ['.', '.']
        ++ texts.drop (sharedNames origin (texts.map Utf8.encode)) := by
  generalize shared : sharedNames origin (texts.map Utf8.encode) = count
  have spelled : (texts.drop count).map
      ((Component.displayText ∘ Component.name) ∘ Utf8.encode) = texts.drop count := by
    refine (List.map_congr_left fun piece _ => ?_).trans (List.map_id _)
    exact Utf8.decodeLossy_encode piece
  rw [routeSteps, shared, List.map_append, List.map_replicate, ← List.map_drop, List.map_map,
    List.map_map, spelled]
  rfl

section

variable {origin : List (List UInt8)} {texts : List Text}
  (originProper : ∀ bytes ∈ origin, IsName bytes)
  (destinationProper : ∀ bytes ∈ texts.map Utf8.encode, IsName bytes)

include originProper destinationProper

/-- The route to a place with names in well-formed text: a parent for every name
left behind, then the names that remain. -/
theorem relative_ofTexts :
    relative (ofNames origin) (ofNames (texts.map Utf8.encode))
      = Separated.join '/'
        (List.replicate (origin.length - sharedNames origin (texts.map Utf8.encode)) ['.', '.']
          ++ texts.drop (sharedNames origin (texts.map Utf8.encode))) := by
  rw [relative_ofNames originProper destinationProper, displayText_routeSteps]

/-- A route in well-formed text spells its steps. -/
theorem ofText_relative :
    ofText (relative (ofNames origin) (ofNames (texts.map Utf8.encode)))
      = ofComponents (routeSteps origin (texts.map Utf8.encode)) := by
  have pieces : (List.replicate (origin.length - sharedNames origin (texts.map Utf8.encode))
        ['.', '.'] ++ texts.drop (sharedNames origin (texts.map Utf8.encode))).map Utf8.encode
      = (routeSteps origin (texts.map Utf8.encode)).map Component.bytes := by
    rw [routeSteps, List.map_append, List.map_append, List.map_replicate, List.map_replicate,
      ← List.map_drop, List.map_map, List.map_map]
    rfl
  apply congrArg Path.mk
  rw [relative_ofTexts originProper destinationProper, Utf8.encode_join '/' (by rfl), pieces]
  exact (bytes_ofComponents (isSegment_of_mem_routeSteps origin destinationProper)).symm

/-- A route in well-formed text reads back as the steps that it shows. -/
theorem steps_relative_ofTexts :
    (ofText (relative (ofNames origin) (ofNames (texts.map Utf8.encode)))).steps
      = routeSteps origin (texts.map Utf8.encode) := by
  rw [ofText_relative originProper destinationProper,
    steps_ofComponents (isSegment_of_mem_routeSteps origin destinationProper)]

end

/-- What the text of a route to a plain destination holds, and the steps that
it reads back as. -/
theorem steps_relative {origin destination : List (List UInt8)}
    (originProper : ∀ bytes ∈ origin, IsName bytes)
    (destinationProper : ∀ bytes ∈ destination, IsName bytes)
    (plain : IsPlain (ofNames destination)) :
    '\\' ∉ relative (ofNames origin) (ofNames destination)
      ∧ (ofText (relative (ofNames origin) (ofNames destination))).steps
        = routeSteps origin destination := by
  obtain ⟨texts, rfl, clear⟩ := exists_texts_of_isPlain destinationProper plain
  refine ⟨?_, steps_relative_ofTexts originProper destinationProper⟩
  rw [relative_ofTexts originProper destinationProper]
  intro backslash
  rcases Separated.mem_join backslash with isSlash | ⟨piece, present, inPiece⟩
  · exact absurd isSlash (by decide)
  rcases List.mem_append.1 present with up | down
  · rw [List.eq_of_mem_replicate up] at inPiece
    exact absurd inPiece (by decide)
  · exact (clear piece (List.mem_of_mem_drop down)).2 inPiece

end PathAlias.Path
