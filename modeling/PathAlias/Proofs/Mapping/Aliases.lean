import PathAlias.Project.Basic
import PathAlias.Proofs.OrderedMap
import PathAlias.Proofs.Outcomes

/-!
Contract: what a configuration has to be for a project to come of it.

Owns:
- the aliases that a map lists, and when their stems do not clash;
- the outcomes of a map, and when it has aliases;
- when a configuration has a project.

Does not own: the first clash of a map that fails, or look-up.

The aliases of a map are a list with distinct stems.  Whatever list a map can be
brought to lists the aliases of that map as soon as its stems are distinct, so
that no proof about aliases opens the search for a clash again.
-/

set_option autoImplicit false

namespace PathAlias

namespace Aliases

/-- The aliases that a map lists, whether or not their stems are distinct. -/
def candidates (map : AliasMap) : List Alias :=
  map.entries.map fun entry => Alias.ofTargets entry.1 entry.2

theorem getElem?_candidates {map : AliasMap} {place : Nat} {entry : Text × Targets}
    (present : map.entries[place]? = some entry) :
    (candidates map)[place]? = some (Alias.ofTargets entry.1 entry.2) := by
  rw [candidates, List.getElem?_map, present]
  rfl

theorem candidates_eraseAt (map : AliasMap) (place : Nat) :
    candidates (map.eraseAt place) = (candidates map).eraseIdx place :=
  (List.eraseIdx_map _ map.entries place).symm

theorem firstClash?_eq_none_iff {earlier : List Text} {candidates : List Alias} :
    firstClash? earlier candidates = none
      ↔ (candidates.map Alias.stem).Nodup
        ∧ ∀ candidate ∈ candidates, candidate.stem ∉ earlier := by
  refine ⟨nodup_of_firstClash?_eq_none, ?_⟩
  intro fresh
  induction candidates generalizing earlier with
  | nil => rfl
  | cons first rest inductionHypothesis =>
      have distinct := List.nodup_cons.1 fresh.1
      unfold firstClash?
      rw [if_neg (fresh.2 first List.mem_cons_self)]
      apply inductionHypothesis
      refine ⟨distinct.2, ?_⟩
      intro candidate member known
      rcases List.mem_cons.1 known with same | isEarlier
      · exact distinct.1 (same ▸ List.mem_map_of_mem member)
      · exact fresh.2 candidate (List.mem_cons_of_mem first member) isEarlier

/-- A map lists nothing, or its first clash fails it, or it has the aliases that
it lists. -/
inductive MapOutcome (map : AliasMap) : Prop where
  | empty
      (nothing : map.entries = [])
      (result : ofMap map = .error .emptyPaths)
  | clashing (later : Alias)
      (nonempty : map.entries ≠ [])
      (clash : firstClash? [] (candidates map) = some later)
      (result : ofMap map = .error (.stemTaken later.pattern later.stem))
  | listed (aliases : Aliases)
      (nonempty : map.entries ≠ [])
      (clashFree : firstClash? [] (candidates map) = none)
      (whole : aliases.toList = candidates map)
      (result : ofMap map = .ok aliases)

theorem mapOutcome (map : AliasMap) : MapOutcome map := by
  have empty : (candidates map).isEmpty = true ↔ map.entries = [] := by simp [candidates]
  by_cases nothing : map.entries = []
  · exact .empty nothing (if_pos (empty.2 nothing))
  · cases found : firstClash? [] (candidates map) with
    | some later =>
        refine .clashing later nothing found ((if_neg (mt empty.1 nothing)).trans ?_)
        split
        · rename_i other clash
          cases found.symm.trans clash
          rfl
        · rename_i clashFree
          cases found.symm.trans clashFree
    | none =>
        refine .listed ⟨candidates map, (nodup_of_firstClash?_eq_none found).1⟩ nothing found rfl
          ((if_neg (mt empty.1 nothing)).trans ?_)
        split
        · rename_i other clash
          cases found.symm.trans clash
        · rfl

/-- A map has aliases when it lists any, and their stems are distinct. -/
theorem ofMap_eq_ok_iff {map : AliasMap} {aliases : Aliases} :
    ofMap map = .ok aliases ↔ map.entries ≠ [] ∧ aliases.toList = candidates map := by
  cases mapOutcome map with
  | empty nothing result => simp [nothing, result]
  | clashing later nonempty clash result =>
      rw [result]
      refine iff_of_false (by simp) ?_
      intro listed
      have distinct := aliases.distinctStems
      rw [listed.2] at distinct
      have clashFree : firstClash? [] (candidates map) = none :=
        firstClash?_eq_none_iff.2 ⟨distinct, by simp⟩
      cases clash.symm.trans clashFree
  | listed others nonempty clashFree whole result =>
      cases others
      cases aliases
      rw [result, ← whole]
      simp [nonempty, eq_comm]

/-- A map that lists aliases with distinct stems has them. -/
theorem exists_ofMap_eq_ok {map : AliasMap} (nonempty : map.entries ≠ [])
    (distinct : ((candidates map).map Alias.stem).Nodup) :
    ∃ aliases, ofMap map = .ok aliases ∧ aliases.toList = candidates map :=
  ⟨⟨candidates map, distinct⟩, ofMap_eq_ok_iff.2 ⟨nonempty, rfl⟩, rfl⟩

theorem nodup_stem_candidates {map : AliasMap} {aliases : Aliases}
    (listed : ofMap map = .ok aliases) : ((candidates map).map Alias.stem).Nodup := by
  rw [← (ofMap_eq_ok_iff.1 listed).2]
  exact aliases.distinctStems

end Aliases

namespace PathMapping

@[simp]
theorem normalizeBaseUrl_ne_nil (baseUrl : Option Text) : normalizeBaseUrl baseUrl ≠ [] := by
  unfold normalizeBaseUrl
  split
  · decide
  · decide
  · decide
  · rename_i notEmpty _
    intro isEmpty
    exact notEmpty isEmpty

/-- A configuration has a mapping when it names a map that has aliases. -/
theorem ofConfiguration_eq_ok_iff {configuration : Configuration} {mapping : PathMapping} :
    ofConfiguration (some configuration) = .ok mapping
      ↔ ∃ map, configuration.options.paths = some map
        ∧ Aliases.ofMap map = .ok mapping.aliases
        ∧ mapping.baseUrl = normalizeBaseUrl configuration.options.baseUrl := by
  obtain ⟨used, aliases⟩ := mapping
  unfold ofConfiguration ofOptions
  cases named : configuration.options.paths with
  | none => simp [named]
  | some map =>
      cases listed : Aliases.ofMap map with
      | error cause => simp [named, listed]
      | ok found => simp [named, listed, eq_comm, and_comm]

end PathMapping

namespace Project

theorem ofConfiguration_eq_ok_iff {configuration : Configuration} {workingDirectory : Path}
    {project : Project} :
    ofConfiguration (some configuration) workingDirectory = .ok project
      ↔ PathMapping.ofConfiguration (some configuration) = .ok project.mapping
        ∧ project.workingDirectory = workingDirectory := by
  obtain ⟨mapping, directory⟩ := project
  unfold ofConfiguration
  cases PathMapping.ofConfiguration (some configuration) with
  | error cause => simp
  | ok found => simp [eq_comm]

theorem ofConfiguration_of_ofMap {configuration : Configuration} {baseUrl : Option Text}
    {map : AliasMap} {aliases : Aliases} (named : configuration.options = ⟨baseUrl, some map⟩)
    (listed : Aliases.ofMap map = .ok aliases) (workingDirectory : Path) :
    ofConfiguration (some configuration) workingDirectory
      = .ok ⟨⟨PathMapping.normalizeBaseUrl baseUrl, aliases⟩, workingDirectory⟩ := by
  rw [ofConfiguration_eq_ok_iff, PathMapping.ofConfiguration_eq_ok_iff, named]
  exact ⟨⟨map, rfl, listed, rfl⟩, rfl⟩

end Project

end PathAlias
