import PathAlias.Proofs.Path.Excursion

/-!
Contract: anchoring as a normal form.

Owns:
- normal paths: the root, and names below it with one slash between neighbours;
- that the absolute paths with given names are the normal ones;
- the main statement: an anchored path is normal, anchoring leaves it as it is,
  and in front of any other path it can stand for the path that was anchored.

Does not own: relative working directories, from which anchoring gives relative
paths, and parents in front of them (`PathAlias.Proofs.Project.RelativeDirectory`).
-/

set_option autoImplicit false

namespace PathAlias.Path

/-! ## Normal paths -/

/-- The root and then names, with no byte to spare: no name is empty or a step
of its own, and no slash closes the path unless it is the root. -/
def IsNormal (path : Path) : Prop :=
  ∃ names, (∀ bytes ∈ names, IsName bytes)
    ∧ path.components = .root :: names.map .name
    ∧ path.bytes = slash :: Separated.join slash names

theorem bytes_ofNames {names : List (List UInt8)} (proper : ∀ bytes ∈ names, IsName bytes) :
    (ofNames names).bytes = slash :: Separated.join slash names := by
  have segments : ∀ component ∈ names.map Component.name, IsSegment component :=
    isSegment_of_mem_parents_names 0 proper
  have spelled : (names.map Component.name).map Component.bytes = names := by
    rw [List.map_map]
    exact List.map_id names
  have closed : (ofNames []).bytes.getLast? = some slash := rfl
  have joined := bytes_foldl_join (Or.inr closed) segments
  rw [spelled] at joined
  exact joined

theorem isNormal_iff {path : Path} :
    path.IsNormal ↔ ∃ names, (∀ bytes ∈ names, IsName bytes) ∧ path = ofNames names := by
  constructor
  · rintro ⟨names, proper, -, spelled⟩
    exact ⟨names, proper, congrArg Path.mk (spelled.trans (bytes_ofNames proper).symm)⟩
  · rintro ⟨names, proper, rfl⟩
    exact ⟨names, proper, components_ofNames proper, bytes_ofNames proper⟩

theorem ofNames_injective {left right : List (List UInt8)}
    (leftProper : ∀ bytes ∈ left, IsName bytes) (rightProper : ∀ bytes ∈ right, IsName bytes)
    (same : ofNames left = ofNames right) : left = right := by
  rw [← reach_ofNames [] leftProper, same, reach_ofNames [] rightProper]

theorem isNormal_of_clean {path : Path} (absolute : path.isAbsolute = true)
    (clean : path.clean = path) : path.IsNormal := by
  rw [clean_of_isAbsolute absolute] at clean
  exact isNormal_iff.2 ⟨_, isName_of_mem_workingNames path, clean.symm⟩

/-- A path taken from the place with the given names is cleaned to the place
that it leads to. -/
theorem clean_ofNames_join {names : List (List UInt8)} (proper : ∀ bytes ∈ names, IsName bytes)
    (path : Path) : ((ofNames names).join path).clean = ofNames (path.reach names) := by
  have absolute : ((ofNames names).join path).isAbsolute = true := by
    rw [isAbsolute_join, isAbsolute_ofNames, Bool.true_or]
  rw [clean_of_isAbsolute absolute, reach_join, reach_ofNames [] proper]

/-! ## Anchoring -/

section

variable {workingDirectory : Path} (absolute : workingDirectory.isAbsolute = true)

include absolute

theorem isNormal_anchor (path : Path) : (path.anchor workingDirectory).IsNormal := by
  rw [anchor_eq_ofNames absolute]
  have proper := isName_of_mem_reach (isName_of_mem_workingNames workingDirectory) path
  exact isNormal_iff.2 ⟨_, proper, rfl⟩

/-- An anchored path leads to its own place, wherever it is taken from. -/
theorem reach_anchor (origin : List (List UInt8)) (path : Path) :
    (path.anchor workingDirectory).reach origin = path.reach (workingDirectory.reach []) := by
  rw [anchor_eq_ofNames absolute, reach_ofNames]
  exact isName_of_mem_reach (isName_of_mem_workingNames workingDirectory) path

/-- **Anchoring gives a normal form that joining respects.**  The result starts
at the root and holds nothing but names; it is its own anchored form; and what is
joined onto it leads where it would lead from the path itself. -/
theorem anchor_normalForm (path continuation : Path) :
    (path.anchor workingDirectory).isAbsolute = true
      ∧ (path.anchor workingDirectory).IsNormal
      ∧ (path.anchor workingDirectory).anchor workingDirectory = path.anchor workingDirectory
      ∧ ((path.anchor workingDirectory).join continuation).anchor workingDirectory
        = (path.join continuation).anchor workingDirectory := by
  have isRooted : (path.anchor workingDirectory).isAbsolute = true := by
    rw [anchor_eq_ofNames absolute]
    exact isAbsolute_ofNames _
  refine ⟨isRooted, isNormal_anchor absolute path, ?_, ?_⟩
  · rw [anchor_eq_ofNames absolute (path.anchor workingDirectory), reach_anchor absolute,
      anchor_eq_ofNames absolute path]
  · rw [anchor_eq_ofNames absolute, anchor_eq_ofNames absolute (path.join continuation),
      reach_join, reach_join, reach_anchor absolute]

end

def appDirectory : Path := ofText "/work/./app/".toList

/-- A path above the root and back down, through a name that is no text. -/
def aboveRoot : Path :=
  ⟨(ofText "../../../lib//".toList).bytes ++ 0xFF :: (ofText "/./x/..".toList).bytes⟩

theorem anchor_normalForm_aboveRoot :
    appDirectory.isAbsolute = true
      ∧ aboveRoot.anchor appDirectory = ⟨(ofText "/lib/".toList).bytes ++ [0xFF]⟩
      ∧ (aboveRoot.anchor appDirectory).IsNormal
      ∧ (aboveRoot.anchor appDirectory).anchor appDirectory = aboveRoot.anchor appDirectory
      ∧ ((aboveRoot.anchor appDirectory).join (ofText "../.env/".toList)).anchor appDirectory
        = (aboveRoot.join (ofText "../.env/".toList)).anchor appDirectory
      ∧ (aboveRoot.join (ofText "../.env/".toList)).anchor appDirectory
        = ofText "/lib/.env".toList := by
  have absolute : appDirectory.isAbsolute = true := by decide +kernel
  have anchored : aboveRoot.anchor appDirectory = ⟨(ofText "/lib/".toList).bytes ++ [0xFF]⟩ := by
    decide +kernel
  obtain ⟨-, normal, again, joined⟩ :=
    anchor_normalForm absolute aboveRoot (ofText "../.env/".toList)
  exact ⟨absolute, anchored, normal, again, joined, by decide +kernel⟩

end PathAlias.Path
