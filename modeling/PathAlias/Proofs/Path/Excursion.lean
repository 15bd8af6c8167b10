import Mathlib.Data.List.Basic
import Mathlib.Data.List.Induction
import PathAlias.Proofs.Path.Names

/-!
Contract: relative paths as a number of parents and then names.

Owns:
- the components that one segment spells, and the path that such components
  spell;
- excursions, which go up first and then down, and one more step of them;
- the agreement of cleaning and of walking with an excursion;
- paths that stay inside the directory they are taken from.

Does not own: absolute paths (`PathAlias.Proofs.Path.Names`).

Cleaning a relative path and walking along it keep the same state.  What a
parent takes back is a name of the path, if there is one, and else a name of the
place that the walk set out from.
-/

set_option autoImplicit false

namespace PathAlias.Path

/-! ## Paths spelled by their components -/

/-- A component that is spelled as one segment. -/
structure IsSegment (component : Component) : Prop where
  withoutSlash : slash ∉ component.bytes
  read : Component.ofSegment? component.bytes = some component

theorem isSegment_parent : IsSegment .parent := ⟨by decide, by decide⟩

theorem isSegment_name {bytes : List UInt8} (isName : IsName bytes) : IsSegment (.name bytes) :=
  ⟨isName.withoutSlash, ofSegment?_of_isName isName⟩

/-- One segment spells a parent or a name, and nothing else. -/
theorem isSegment_iff {component : Component} :
    IsSegment component
      ↔ component = .parent ∨ ∃ bytes, IsName bytes ∧ component = .name bytes := by
  constructor
  · intro isSegment
    rcases ofSegment?_cases isSegment.withoutSlash isSegment.read with up | ⟨isName, named⟩
    · exact Or.inl up
    · exact Or.inr ⟨_, isName, named⟩
  · rintro (rfl | ⟨bytes, isName, rfl⟩)
    · exact isSegment_parent
    · exact isSegment_name isName

theorem isSegment_of_mem_parents_names (count : Nat) {names : List (List UInt8)}
    (proper : ∀ bytes ∈ names, IsName bytes) :
    ∀ component ∈ List.replicate count .parent ++ names.map .name, IsSegment component := by
  intro component member
  rcases List.mem_append.1 member with up | down
  · rw [List.eq_of_mem_replicate up]
    exact isSegment_parent
  · obtain ⟨bytes, present, rfl⟩ := List.mem_map.1 down
    exact isSegment_name (proper bytes present)

theorem IsSegment.bytes_ne {component : Component} (isSegment : IsSegment component) :
    component.bytes ≠ [] ∧ component.bytes ≠ [dot] := by
  have read := isSegment.read
  unfold Component.ofSegment? at read
  split at read
  · cases read
  · rename_i present
    rwa [not_or] at present

theorem IsSegment.not_isAbsolute_append {component : Component}
    (isSegment : IsSegment component) (tail : List UInt8) :
    isAbsolute ⟨component.bytes ++ tail⟩ = false :=
  Path.not_isAbsolute_append isSegment.bytes_ne.1 isSegment.withoutSlash tail

/-- What ends with a segment is not closed by a slash. -/
theorem IsSegment.join_concat {last : Component} (isSegment : IsSegment last)
    (front : List Component) :
    Separated.join slash ((front ++ [last]).map Component.bytes) ≠ []
      ∧ (Separated.join slash ((front ++ [last]).map Component.bytes)).getLast? ≠ some slash := by
  have ended := Separated.getLast?_join_concat slash (front.map Component.bytes)
    isSegment.bytes_ne.1
  rw [List.map_append, List.map_singleton]
  constructor
  · intro empty
    rw [empty] at ended
    exact isSegment.bytes_ne.1 (List.getLast?_eq_none_iff.1 ended.symm)
  · rw [ended]
    intro isSlash
    exact isSegment.withoutSlash (List.mem_of_getLast? isSlash)

/-- Segments joined one after another onto a path that is empty or closed by a
slash follow it, with slashes between them. -/
theorem bytes_foldl_join {path : Path}
    (closed : path.bytes = [] ∨ path.bytes.getLast? = some slash) {components : List Component}
    (proper : ∀ component ∈ components, IsSegment component) :
    (components.foldl (fun path component => path.join ⟨component.bytes⟩) path).bytes
      = path.bytes ++ Separated.join slash (components.map Component.bytes) := by
  induction components using List.reverseRecOn with
  | nil => exact (List.append_nil _).symm
  | append_singleton front last inductionHypothesis =>
      have isSegment : IsSegment last := proper last (by simp)
      have frontProper : ∀ component ∈ front, IsSegment component :=
        fun component member => proper component (List.mem_append_left _ member)
      have relative : isAbsolute ⟨last.bytes⟩ = false := by
        simpa using isSegment.not_isAbsolute_append []
      rw [List.foldl_append, List.foldl_cons, List.foldl_nil, join, if_neg (by simp [relative]),
        inductionHypothesis frontProper]
      rcases List.eq_nil_or_concat' front with rfl | ⟨earlier, before, rfl⟩
      · simp [Separated.join, closed]
      · -- what is spelled so far ends with a segment, so that a slash comes between
        obtain ⟨spelled, unclosed⟩ := (frontProper before (by simp)).join_concat earlier
        rw [← List.getLast?_append_of_ne_nil path.bytes spelled] at unclosed
        have spelledAfter := List.append_ne_nil_of_right_ne_nil path.bytes spelled
        have extended : (earlier ++ [before] ++ [last]).map Component.bytes
            = (earlier ++ [before]).map Component.bytes ++ [last.bytes] := List.map_append
        rw [if_neg (not_or.2 ⟨spelledAfter, unclosed⟩), extended,
          Separated.join_append (by simp) (by simp), ← List.append_assoc]
        rfl

theorem bytes_ofComponents {components : List Component}
    (proper : ∀ component ∈ components, IsSegment component) :
    (ofComponents components).bytes = Separated.join slash (components.map Component.bytes) :=
  bytes_foldl_join (Or.inl rfl) proper

theorem not_isAbsolute_ofComponents {components : List Component}
    (proper : ∀ component ∈ components, IsSegment component) :
    (ofComponents components).isAbsolute = false := by
  cases components with
  | nil => rfl
  | cons first others =>
      have isSegment : IsSegment first := proper first List.mem_cons_self
      obtain ⟨tail, joined, -⟩ :=
        Separated.exists_join_cons slash first.bytes (others.map Component.bytes)
      have spelled := bytes_ofComponents proper
      rw [List.map_cons, joined] at spelled
      have isPath : ofComponents (first :: others) = ⟨first.bytes ++ tail⟩ :=
        congrArg Path.mk spelled
      rw [isPath]
      exact isSegment.not_isAbsolute_append tail

theorem segments_ofComponents {components : List Component} (nonempty : components ≠ [])
    (proper : ∀ component ∈ components, IsSegment component) :
    (ofComponents components).segments = components.map Component.bytes := by
  unfold segments
  rw [bytes_ofComponents proper, Separated.split_join]
  · simpa using nonempty
  · intro piece member
    obtain ⟨component, present, rfl⟩ := List.mem_map.1 member
    exact (proper component present).withoutSlash

theorem steps_ofComponents {components : List Component}
    (proper : ∀ component ∈ components, IsSegment component) :
    (ofComponents components).steps = components := by
  by_cases nonempty : components = []
  · subst nonempty
    rfl
  · rw [steps, segments_ofComponents nonempty proper, List.filterMap_map]
    refine (List.filterMap_congr fun component member => ?_).trans List.filterMap_some
    exact (proper component member).read

/-- A path has the components that it is spelled by. -/
theorem components_ofComponents {components : List Component}
    (proper : ∀ component ∈ components, IsSegment component) :
    (ofComponents components).components = components := by
  have unstarted : (ofComponents components).start = [] := by
    cases components with
    | nil => rfl
    | cons first others =>
        have isSegment : IsSegment first := proper first List.mem_cons_self
        unfold start
        rw [not_isAbsolute_ofComponents proper, segments_ofComponents (by simp) proper]
        simp [isSegment.bytes_ne.2]
  rw [components_eq_start_append_steps, unstarted, steps_ofComponents proper, List.nil_append]

/-! ## Excursions -/

/-- A way up some directories and then down through names. -/
structure Excursion where
  ascents : Nat
  names : List (List UInt8)

namespace Excursion

def extend : Excursion → Component → Excursion
  | way, .name bytes => { way with names := way.names ++ [bytes] }
  | way, .parent =>
      if way.names = [] then { way with ascents := way.ascents + 1 }
      else { way with names := way.names.dropLast }
  | way, _ => way

def components (way : Excursion) : List Component :=
  List.replicate way.ascents .parent ++ way.names.map .name

/-- The names of the place that a way leads to. -/
def arrival (way : Excursion) (origin : List (List UInt8)) : List (List UInt8) :=
  origin.take (origin.length - way.ascents) ++ way.names

theorem arrival_extend (way : Excursion) (step : Component) (origin : List (List UInt8)) :
    (way.extend step).arrival origin = walk (way.arrival origin) step := by
  cases step with
  | root => rfl
  | current => rfl
  | name bytes => exact (List.append_assoc _ _ _).symm
  | parent =>
      -- the parent takes back a name of the way, or else one of the origin
      simp only [extend, walk, arrival]
      split
      · rename_i empty
        simp only [empty, List.append_nil, List.dropLast_eq_take, List.take_take,
          List.length_take]
        congr 1
        omega
      · rename_i nonempty
        rw [List.dropLast_append_of_ne_nil nonempty]

theorem cleanStep_components (way : Excursion) {step : Component} (rootless : step ≠ .root) :
    cleanStep way.components.reverse step = (way.extend step).components.reverse := by
  obtain ⟨ascents, names⟩ := way
  cases step with
  | root => exact absurd rfl rootless
  | current => rfl
  | name bytes => simp [cleanStep, extend, components]
  | parent =>
      rcases List.eq_nil_or_concat' names with rfl | ⟨front, last, rfl⟩
      · simp only [components, extend, List.map_nil, List.append_nil, List.reverse_replicate,
          ↓reduceIte]
        cases ascents with
        | zero => rfl
        | succ ascents => rfl
      · simp [cleanStep, extend, components]

end Excursion

/-! ## One way after another -/

namespace Excursion

def followedBy (first second : Excursion) : Excursion where
  ascents := first.ascents + (second.ascents - first.names.length)
  names := first.names.take (first.names.length - second.ascents) ++ second.names

theorem extend_followedBy (first second : Excursion) (step : Component) :
    (first.followedBy second).extend step = first.followedBy (second.extend step) := by
  cases step with
  | root => rfl
  | current => rfl
  | name bytes => simp [extend, followedBy]
  | parent =>
      obtain ⟨ascents, names⟩ := second
      by_cases nameless : names = []
      · subst nameless
        -- the parent takes back a name of the first way, if there is one left
        by_cases exhausted : first.names.length ≤ ascents
        · have noneLeft : first.names.length - ascents = 0 := by omega
          have noneNext : first.names.length - (ascents + 1) = 0 := by omega
          simp only [extend, followedBy, noneLeft, noneNext, List.take_zero, List.append_nil,
            ↓reduceIte, mk.injEq, and_true]
          omega
        · have oneLeft : first.names.take (first.names.length - ascents) ≠ [] := by
            rw [Ne, List.take_eq_nil_iff, not_or]
            constructor
            · omega
            · rintro empty
              simp [empty] at exhausted
          have climbed : ascents - first.names.length = 0 := by omega
          have climbedNext : ascents + 1 - first.names.length = 0 := by omega
          simp only [extend, followedBy, List.append_nil, oneLeft, ↓reduceIte, climbed,
            climbedNext, List.dropLast_eq_take, List.take_take, List.length_take, mk.injEq,
            true_and]
          congr 1
          omega
      · simp only [extend, followedBy, nameless, List.append_eq_nil_iff, and_false, ↓reduceIte,
          List.dropLast_append_of_ne_nil nameless]

theorem foldl_extend_followedBy (first second : Excursion) (steps : List Component) :
    steps.foldl extend (first.followedBy second)
      = first.followedBy (steps.foldl extend second) := by
  induction steps generalizing second with
  | nil => rfl
  | cons step rest inductionHypothesis =>
      rw [List.foldl_cons, List.foldl_cons, extend_followedBy, inductionHypothesis]

theorem followedBy_staying (way : Excursion) : way.followedBy ⟨0, []⟩ = way := by
  simp [followedBy]

theorem staying_followedBy (way : Excursion) : (Excursion.mk 0 []).followedBy way = way := by
  simp [followedBy]

/-- Steps taken at the end of a way are the way that they go by themselves. -/
theorem foldl_extend (way : Excursion) (steps : List Component) :
    steps.foldl extend way = way.followedBy (steps.foldl extend ⟨0, []⟩) := by
  rw [← foldl_extend_followedBy, followedBy_staying]

theorem foldl_extend_names (way : Excursion) (names : List (List UInt8)) :
    (names.map Component.name).foldl extend way = ⟨way.ascents, way.names ++ names⟩ := by
  induction names generalizing way with
  | nil => simp
  | cons bytes rest inductionHypothesis =>
      rw [List.map_cons, List.foldl_cons, inductionHypothesis]
      simp [extend]

theorem foldl_extend_parents (ascents count : Nat) :
    (List.replicate count Component.parent).foldl extend ⟨ascents, []⟩
      = ⟨ascents + count, []⟩ := by
  induction count generalizing ascents with
  | zero => rfl
  | succ count inductionHypothesis =>
      rw [List.replicate_succ, List.foldl_cons]
      refine (inductionHypothesis (ascents + 1)).trans ?_
      rw [Nat.add_right_comm, Nat.add_assoc]

/-- The components of a way go that way. -/
theorem foldl_extend_components (way : Excursion) :
    way.components.foldl extend ⟨0, []⟩ = way := by
  rw [components, List.foldl_append, foldl_extend_parents, foldl_extend_names, Nat.zero_add,
    List.nil_append]

end Excursion

def excursion (path : Path) : Excursion := path.steps.foldl Excursion.extend ⟨0, []⟩

theorem foldl_walk_arrival (way : Excursion) (steps : List Component)
    (origin : List (List UInt8)) :
    steps.foldl walk (way.arrival origin) = (steps.foldl Excursion.extend way).arrival origin := by
  induction steps generalizing way with
  | nil => rfl
  | cons step rest inductionHypothesis =>
      rw [List.foldl_cons, List.foldl_cons, ← Excursion.arrival_extend, inductionHypothesis]

theorem foldl_cleanStep_components (way : Excursion) {steps : List Component}
    (rootless : Component.root ∉ steps) :
    steps.foldl cleanStep way.components.reverse
      = (steps.foldl Excursion.extend way).components.reverse := by
  induction steps generalizing way with
  | nil => rfl
  | cons step rest inductionHypothesis =>
      rw [List.mem_cons, not_or] at rootless
      have stepRootless : step ≠ .root := fun isRoot => rootless.1 isRoot.symm
      rw [List.foldl_cons, List.foldl_cons, Excursion.cleanStep_components way stepRootless,
        inductionHypothesis (way.extend step) rootless.2]

section

variable {path : Path} (relative : path.isAbsolute = false)

include relative

theorem reach_eq_arrival (origin : List (List UInt8)) :
    path.reach origin = path.excursion.arrival origin := by
  have stays : (Excursion.mk 0 []).arrival origin = origin := by simp [Excursion.arrival]
  rw [reach_of_relative relative, excursion, ← foldl_walk_arrival, stays]

theorem isName_of_mem_excursion : ∀ bytes ∈ path.excursion.names, IsName bytes := by
  have fromRoot : ∀ bytes ∈ path.reach [], IsName bytes := isName_of_mem_workingNames path
  intro bytes member
  apply fromRoot
  rw [reach_eq_arrival relative]
  exact List.mem_append_right _ member

theorem cleanComponents_of_relative :
    cleanComponents path.components = path.excursion.components := by
  have started : path.components.foldl cleanStep [] = path.steps.foldl cleanStep [] := by
    rw [components_eq_start_append_steps, start, relative]
    simp only [Bool.false_eq_true, ↓reduceIte]
    split <;> rfl
  have cleaned := foldl_cleanStep_components ⟨0, []⟩ (root_not_mem_steps path)
  unfold cleanComponents
  rw [started]
  exact (congrArg List.reverse cleaned).trans (List.reverse_reverse _)

theorem isSegment_of_mem_excursion :
    ∀ component ∈ path.excursion.components, IsSegment component :=
  isSegment_of_mem_parents_names _ (isName_of_mem_excursion relative)

theorem clean_of_moving (moving : path.excursion.components ≠ []) :
    path.clean = ofComponents path.excursion.components := by
  unfold clean
  rw [cleanComponents_of_relative relative]
  split
  · contradiction
  · rfl

theorem clean_of_staying (staying : path.excursion.components = []) :
    path.clean = ofText ['.'] := by
  unfold clean
  rw [cleanComponents_of_relative relative, staying]
  rfl

/-- A relative path is cleaned to the way that it goes, or to the current
directory where that way is empty. -/
theorem components_clean_of_relative (moving : path.excursion.components ≠ []) :
    path.clean.components = path.excursion.components := by
  rw [clean_of_moving relative moving]
  exact components_ofComponents (isSegment_of_mem_excursion relative)

theorem steps_clean_of_relative : path.clean.steps = path.excursion.components := by
  by_cases staying : path.excursion.components = []
  · rw [clean_of_staying relative staying, staying]
    rfl
  · rw [clean_of_moving relative staying]
    exact steps_ofComponents (isSegment_of_mem_excursion relative)

theorem isAbsolute_clean_of_relative : path.clean.isAbsolute = false := by
  by_cases staying : path.excursion.components = []
  · rw [clean_of_staying relative staying]
    rfl
  · rw [clean_of_moving relative staying]
    exact not_isAbsolute_ofComponents (isSegment_of_mem_excursion relative)

/-- A cleaned path goes the way of the path. -/
theorem excursion_clean : path.clean.excursion = path.excursion := by
  rw [excursion, steps_clean_of_relative relative, Excursion.foldl_extend_components]

/-- A cleaned path is spelled by its components. -/
theorem ofComponents_components_clean : ofComponents path.clean.components = path.clean := by
  by_cases staying : path.excursion.components = []
  · rw [clean_of_staying relative staying]
    rfl
  · rw [components_clean_of_relative relative staying, clean_of_moving relative staying]

/-- Relative paths that go one way are cleaned alike. -/
theorem clean_eq_of_excursion_eq {other : Path} (otherRelative : other.isAbsolute = false)
    (same : path.excursion = other.excursion) : path.clean = other.clean := by
  unfold clean
  rw [cleanComponents_of_relative relative, cleanComponents_of_relative otherRelative, same]

/-- A relative path at the end of another one goes the way of both, one after the
other. -/
theorem excursion_join (front : Path) :
    (front.join path).excursion = front.excursion.followedBy path.excursion := by
  rw [excursion, steps_join relative, List.foldl_append]
  exact Excursion.foldl_extend _ _

end

/-! ## Paths that stay inside -/

/-- The cleaned path does not start with a parent. -/
def StaysInside (path : Path) : Prop := path.clean.components.head? ≠ some .parent

instance (path : Path) : Decidable path.StaysInside :=
  inferInstanceAs (Decidable (path.clean.components.head? ≠ some .parent))

section

variable {path : Path} (relative : path.isAbsolute = false) (inside : path.StaysInside)

include relative inside

theorem ascents_of_staysInside : path.excursion.ascents = 0 := by
  by_contra climbing
  obtain ⟨ascents, isAscents⟩ := Nat.exists_eq_succ_of_ne_zero climbing
  have isUp : path.excursion.components
      = .parent :: (List.replicate ascents .parent ++ path.excursion.names.map .name) := by
    rw [Excursion.components, isAscents, List.replicate_succ, List.cons_append]
  apply inside
  rw [components_clean_of_relative relative (by simp [isUp]), isUp]
  rfl

/-- A path that stays inside leads from every place to the same names below
it. -/
theorem reach_of_staysInside (origin : List (List UInt8)) :
    path.reach origin = origin ++ path.excursion.names := by
  rw [reach_eq_arrival relative, Excursion.arrival, ascents_of_staysInside relative inside,
    Nat.sub_zero, List.take_length]

theorem excursion_of_staysInside : path.excursion = ⟨0, path.excursion.names⟩ := by
  rw [← ascents_of_staysInside relative inside]

theorem names_ne_nil_of_staysInside (moving : path.clean ≠ ofText ['.']) :
    path.excursion.names ≠ [] := by
  intro nameless
  apply moving
  apply clean_of_staying relative
  rw [Excursion.components, ascents_of_staysInside relative inside, nameless]
  rfl

/-- A path that stays inside, at the end of another one that does, leads through
the names of both. -/
theorem excursion_join_of_staysInside {front : Path} (frontRelative : front.isAbsolute = false)
    (frontInside : front.StaysInside) :
    (front.join path).excursion = ⟨0, front.excursion.names ++ path.excursion.names⟩ := by
  rw [excursion_join relative, excursion_of_staysInside frontRelative frontInside,
    excursion_of_staysInside relative inside]
  simp [Excursion.followedBy]

end

theorem staysInside_of_excursion_eq {path : Path} (relative : path.isAbsolute = false)
    {names : List (List UInt8)} (level : path.excursion = ⟨0, names⟩) : path.StaysInside := by
  unfold StaysInside
  by_cases staying : path.excursion.components = []
  · rw [clean_of_staying relative staying]
    decide
  · rw [components_clean_of_relative relative staying, level]
    cases names <;> simp [Excursion.components]

end PathAlias.Path
