import Mathlib.Data.List.Basic
import Mathlib.Data.List.Induction
import PathAlias.Path.Clean
import PathAlias.Proofs.Text.Encoding

/-!
Contract: absolute clean paths as the names from the root down.

Owns:
- the steps of a path, and where they lead from a directory;
- the absolute path with given names, and the laws that tie it to components,
  joining, cleaning and the directory of a path;
- anchoring as a walk: from the working directory through the path.

Does not own: routes between two paths (`PathAlias.Proofs.Path.Route`).

An absolute path after cleaning is its list of names, and every path function
on it is a list function.  A walk is a fold over steps, so that joining paths
is walking one after the other.
-/

set_option autoImplicit false

namespace PathAlias.Path

/-! ## Steps -/

/-- The bytes that an entry of a directory can be called by. -/
structure IsName (bytes : List UInt8) : Prop where
  nonempty : bytes ≠ []
  notCurrent : bytes ≠ [dot]
  notParent : bytes ≠ [dot, dot]
  withoutSlash : slash ∉ bytes

/-- The components of a path after its start. -/
def steps (path : Path) : List Component := path.segments.filterMap Component.ofSegment?

theorem components_eq_start_append_steps (path : Path) :
    path.components = path.start ++ path.steps := rfl

theorem map_name_injective : Function.Injective (List.map Component.name) :=
  List.map_injective_iff.2 fun _ _ same => Component.name.inj same

theorem ofSegment?_of_isName {bytes : List UInt8} (isName : IsName bytes) :
    Component.ofSegment? bytes = some (.name bytes) := by
  unfold Component.ofSegment?
  rw [if_neg (by simp [isName.nonempty, isName.notCurrent]), if_neg isName.notParent]

theorem ofSegment?_cases {segment : List UInt8} {component : Component}
    (withoutSlash : slash ∉ segment) (read : Component.ofSegment? segment = some component) :
    component = .parent ∨ (IsName segment ∧ component = .name segment) := by
  unfold Component.ofSegment? at read
  split at read
  · cases read
  · rename_i present
    split at read
    · left
      exact (Option.some.inj read).symm
    · rename_i notParent
      right
      rw [not_or] at present
      exact ⟨⟨present.1, present.2, notParent, withoutSlash⟩, (Option.some.inj read).symm⟩

theorem step_cases {path : Path} {component : Component} (member : component ∈ path.steps) :
    component = .parent ∨ ∃ bytes ∈ path.segments, IsName bytes ∧ component = .name bytes := by
  obtain ⟨segment, present, read⟩ := List.mem_filterMap.1 member
  rcases ofSegment?_cases (Separated.not_mem_of_mem_split present) read with up | ⟨isName, named⟩
  · exact Or.inl up
  · exact Or.inr ⟨segment, present, isName, named⟩

theorem root_not_mem_steps (path : Path) : Component.root ∉ path.steps := by
  intro member
  rcases step_cases member with impossible | ⟨bytes, present, isName, impossible⟩ <;>
    cases impossible

theorem steps_of_isName {bytes : List UInt8} (isName : IsName bytes) :
    steps ⟨bytes⟩ = [.name bytes] := by
  unfold steps segments
  rw [Separated.split_of_not_mem isName.withoutSlash]
  simp [ofSegment?_of_isName isName]

theorem not_isAbsolute_append {front : List UInt8} (nonempty : front ≠ [])
    (withoutSlash : slash ∉ front) (back : List UInt8) : isAbsolute ⟨front ++ back⟩ = false := by
  obtain ⟨first, others, rfl⟩ := List.exists_cons_of_ne_nil nonempty
  have different : first ≠ slash := by
    rintro rfl
    exact withoutSlash List.mem_cons_self
  simp [isAbsolute, different]

theorem not_isAbsolute_of_isName {bytes : List UInt8} (isName : IsName bytes) :
    isAbsolute ⟨bytes⟩ = false := by
  have relative := not_isAbsolute_append isName.nonempty isName.withoutSlash []
  rwa [List.append_nil] at relative

/-! ## Joining -/

theorem isAbsolute_join (path continuation : Path) :
    (path.join continuation).isAbsolute = (path.isAbsolute || continuation.isAbsolute) := by
  unfold join
  by_cases replaced : continuation.isAbsolute
  · simp [replaced]
  · rw [if_neg replaced]
    cases path with
    | mk bytes =>
        cases bytes with
        | nil => simp [isAbsolute]
        | cons first others =>
            split <;> simp_all [isAbsolute]

theorem not_isAbsolute_join {path continuation : Path} (relative : path.isAbsolute = false)
    (continued : continuation.isAbsolute = false) :
    (path.join continuation).isAbsolute = false := by
  rw [isAbsolute_join, relative, continued]
  rfl

theorem steps_join {path continuation : Path} (relative : continuation.isAbsolute = false) :
    (path.join continuation).steps = path.steps ++ continuation.steps := by
  unfold join
  rw [if_neg (by simp [relative])]
  unfold steps segments
  split
  · rename_i closed
    rcases closed with empty | ended
    · simp [empty, Separated.split, Component.ofSegment?]
    · obtain ⟨front, isFront⟩ := List.getLast?_eq_some_iff.1 ended
      simp only [isFront]
      rw [List.append_assoc, List.singleton_append, Separated.split_append_cons,
        Separated.split_append_cons, List.filterMap_append, List.filterMap_append]
      simp [Separated.split, Component.ofSegment?]
  · rw [Separated.split_append_cons, List.filterMap_append]

/-! ## Walking -/

/-- Where one step leads from the directory with the given names.  The parent
of the root is the root. -/
def walk : List (List UInt8) → Component → List (List UInt8)
  | names, .name bytes => names ++ [bytes]
  | names, .parent => names.dropLast
  | names, _ => names

theorem foldl_walk_names (origin names : List (List UInt8)) :
    (names.map Component.name).foldl walk origin = origin ++ names := by
  induction names generalizing origin with
  | nil => simp
  | cons bytes rest inductionHypothesis =>
      rw [List.map_cons, List.foldl_cons, inductionHypothesis]
      simp [walk]

theorem foldl_walk_parents (origin : List (List UInt8)) (count : Nat) :
    (List.replicate count Component.parent).foldl walk origin
      = origin.take (origin.length - count) := by
  induction count generalizing origin with
  | zero => simp
  | succ count inductionHypothesis =>
      rw [List.replicate_succ, List.foldl_cons, inductionHypothesis]
      simp only [walk, List.dropLast_eq_take, List.take_take, List.length_take]
      congr 1
      omega

/-- A walk ends among the names that it set out from or came through. -/
theorem mem_of_mem_walk {names : List (List UInt8)} {steps : List Component}
    {bytes : List UInt8} (member : bytes ∈ steps.foldl walk names) :
    bytes ∈ names ∨ Component.name bytes ∈ steps := by
  induction steps generalizing names with
  | nil => exact Or.inl member
  | cons step rest inductionHypothesis =>
      rw [List.foldl_cons] at member
      rcases inductionHypothesis member with here | later
      · cases step with
        | root => exact Or.inl here
        | current => exact Or.inl here
        | parent => exact Or.inl (List.dropLast_subset names here)
        | name last =>
            rcases List.mem_append.1 here with earlier | isLast
            · exact Or.inl earlier
            · rw [List.mem_singleton.1 isLast]
              exact Or.inr List.mem_cons_self
      · exact Or.inr (List.mem_cons_of_mem step later)

theorem isName_of_mem_walk {names : List (List UInt8)} {steps : List Component}
    (namesProper : ∀ bytes ∈ names, IsName bytes)
    (stepsProper : ∀ bytes, Component.name bytes ∈ steps → IsName bytes) :
    ∀ bytes ∈ steps.foldl walk names, IsName bytes := by
  intro bytes member
  rcases mem_of_mem_walk member with earlier | isStep
  · exact namesProper bytes earlier
  · exact stepsProper bytes isStep

/-- Cleaning below the root is walking from the root: the cleaned components
are the names walked through, with the last one in front. -/
theorem foldl_cleanStep (names : List (List UInt8)) {steps : List Component}
    (rootless : Component.root ∉ steps) :
    steps.foldl cleanStep ((names.map Component.name).reverse ++ [.root])
      = ((steps.foldl walk names).map Component.name).reverse ++ [.root] := by
  induction steps generalizing names with
  | nil => rfl
  | cons step rest inductionHypothesis =>
      have restRootless : Component.root ∉ rest := fun member =>
        rootless (List.mem_cons_of_mem step member)
      rw [List.foldl_cons, List.foldl_cons, ← inductionHypothesis (walk names step) restRootless]
      congr 1
      cases step with
      | root => exact absurd List.mem_cons_self rootless
      | current => rfl
      | name bytes => simp [cleanStep, walk]
      | parent =>
          rcases List.eq_nil_or_concat' names with rfl | ⟨front, last, rfl⟩
          · rfl
          · simp [cleanStep, walk]

theorem cleanComponents_root {steps : List Component} (rootless : Component.root ∉ steps) :
    cleanComponents (.root :: steps) = .root :: (steps.foldl walk []).map .name := by
  have walked := foldl_cleanStep [] rootless
  simp only [List.map_nil, List.reverse_nil, List.nil_append] at walked
  unfold cleanComponents
  rw [List.foldl_cons]
  change (steps.foldl cleanStep [Component.root]).reverse = _
  rw [walked]
  simp

/-! ## The absolute path with given names -/

def ofNames (names : List (List UInt8)) : Path :=
  ofComponents (.root :: names.map .name)

theorem ofNames_append_singleton (names : List (List UInt8)) (last : List UInt8) :
    ofNames (names ++ [last]) = (ofNames names).join ⟨last⟩ := by
  simp [ofNames, ofComponents, Component.bytes]

@[simp]
theorem isAbsolute_ofNames (names : List (List UInt8)) : (ofNames names).isAbsolute = true := by
  induction names using List.reverseRecOn with
  | nil => rfl
  | append_singleton front last inductionHypothesis =>
      rw [ofNames_append_singleton, isAbsolute_join, inductionHypothesis, Bool.true_or]

theorem steps_ofNames {names : List (List UInt8)} (proper : ∀ bytes ∈ names, IsName bytes) :
    (ofNames names).steps = names.map .name := by
  induction names using List.reverseRecOn with
  | nil => rfl
  | append_singleton front last inductionHypothesis =>
      have isName : IsName last := proper last (by simp)
      rw [ofNames_append_singleton, steps_join (not_isAbsolute_of_isName isName),
        steps_of_isName isName, List.map_append,
        inductionHypothesis (fun bytes member => proper bytes (List.mem_append_left _ member))]
      rfl

theorem components_of_isAbsolute {path : Path} (absolute : path.isAbsolute = true) :
    path.components = .root :: path.steps := by
  rw [components_eq_start_append_steps, start, if_pos absolute]
  rfl

theorem components_ofNames {names : List (List UInt8)}
    (proper : ∀ bytes ∈ names, IsName bytes) :
    (ofNames names).components = .root :: names.map .name := by
  rw [components_of_isAbsolute (isAbsolute_ofNames names), steps_ofNames proper]

theorem directory_ofNames {names : List (List UInt8)}
    (proper : ∀ bytes ∈ names, IsName bytes) :
    (ofNames names).directory = ofNames names.dropLast := by
  unfold directory parent?
  rw [components_ofNames proper]
  rcases List.eq_nil_or_concat' names with rfl | ⟨front, last, rfl⟩
  · rfl
  · have ended : Component.root :: (front ++ [last]).map Component.name
        = (.root :: front.map .name) ++ [.name last] := by simp
    rw [ended, List.getLast?_concat, List.dropLast_concat, List.dropLast_concat]
    rfl

/-! ## Anchoring -/

/-- The names of the place that a path leads to from the directory with the
given names. -/
def reach (origin : List (List UInt8)) (path : Path) : List (List UInt8) :=
  path.steps.foldl walk (if path.isAbsolute then [] else origin)

theorem reach_of_relative {path : Path} (relative : path.isAbsolute = false)
    (origin : List (List UInt8)) : path.reach origin = path.steps.foldl walk origin := by
  unfold reach
  rw [relative]
  rfl

theorem isName_of_mem_reach {origin : List (List UInt8)}
    (proper : ∀ bytes ∈ origin, IsName bytes) (path : Path) :
    ∀ bytes ∈ path.reach origin, IsName bytes := by
  apply isName_of_mem_walk
  · split
    · simp
    · exact proper
  · intro bytes member
    rcases step_cases member with impossible | ⟨segment, present, isName, same⟩
    · cases impossible
    · cases same
      exact isName

theorem reach_ofNames (origin : List (List UInt8)) {names : List (List UInt8)}
    (proper : ∀ bytes ∈ names, IsName bytes) : (ofNames names).reach origin = names := by
  unfold reach
  rw [isAbsolute_ofNames, if_pos rfl, steps_ofNames proper, foldl_walk_names, List.nil_append]

/-- A joined path leads where its second part leads from where its first part
leads. -/
theorem reach_join (origin : List (List UInt8)) (path continuation : Path) :
    (path.join continuation).reach origin = continuation.reach (path.reach origin) := by
  by_cases replaced : continuation.isAbsolute = true
  · unfold join
    rw [if_pos replaced]
    unfold reach
    rw [if_pos replaced, if_pos replaced]
  · have relative : continuation.isAbsolute = false := by simpa using replaced
    unfold reach
    rw [isAbsolute_join, steps_join relative, List.foldl_append, relative, Bool.or_false]
    rfl

theorem clean_of_isAbsolute {path : Path} (absolute : path.isAbsolute = true) :
    path.clean = ofNames (path.reach []) := by
  unfold clean
  rw [components_of_isAbsolute absolute, cleanComponents_root (root_not_mem_steps path)]
  unfold reach
  rw [if_pos absolute]
  rfl

/-- A path anchored at an absolute directory is the absolute path to where it
leads from there. -/
theorem anchor_eq_ofNames {workingDirectory : Path}
    (absolute : workingDirectory.isAbsolute = true) (path : Path) :
    path.anchor workingDirectory = ofNames (path.reach (workingDirectory.reach [])) := by
  unfold anchor
  by_cases anchored : path.isAbsolute = true
  · rw [if_pos anchored, clean_of_isAbsolute anchored]
    unfold reach
    rw [if_pos anchored, if_pos anchored]
  · have joined : (workingDirectory.join path).isAbsolute = true := by
      rw [isAbsolute_join, absolute, Bool.true_or]
    rw [if_neg anchored, clean_of_isAbsolute joined, reach_join]

theorem isName_of_mem_workingNames (workingDirectory : Path) :
    ∀ bytes ∈ workingDirectory.reach [], IsName bytes :=
  isName_of_mem_reach (by simp) workingDirectory

end PathAlias.Path
