import PathAlias.Configuration.Document
import PathAlias.Proofs.Json.Merged
import PathAlias.Proofs.Json.RoundTrip

/-!
Contract: a configuration is read back from its own text.

Owns:
- the shape of the value that a configuration is written as: its nesting, and
  that no object in it names a member twice;
- the decoding of targets, aliases, options and configurations that were
  encoded;
- the main statement: both routes from the text of a configuration lead back to
  it.

Does not own: texts that no configuration was written as.

The two shapes are told apart by one member.  Flat options never have it, so
that reading them as a project document fails for its want, and nothing else.
-/

set_option autoImplicit false

namespace PathAlias

/-! ## The written value -/

section Written

open Json

theorem nests_targets (depth : Nat) (targets : Targets) :
    Nests (depth + 1) (Targets.toJson targets) := by
  cases targets with
  | none => exact .null
  | some targets =>
      apply Nests.array
      intro item member
      obtain ⟨target, -, rfl⟩ := List.mem_map.1 member
      exact .string target

theorem nests_aliasMap (depth : Nat) (map : AliasMap) : Nests (depth + 2) map.toJson := by
  apply Nests.object
  intro member present
  obtain ⟨entry, -, rfl⟩ := List.mem_map.1 present
  exact nests_targets depth entry.2

theorem nests_options (depth : Nat) (options : PathOptions) :
    Nests (depth + 3) options.toJson := by
  apply Nests.object
  intro member present
  rcases List.mem_append.1 present with isBaseUrl | isPaths
  · obtain ⟨baseUrl, -, rfl⟩ := Option.map_eq_some_iff.1 (Option.mem_toList.1 isBaseUrl)
    exact .string baseUrl
  · obtain ⟨map, -, rfl⟩ := Option.map_eq_some_iff.1 (Option.mem_toList.1 isPaths)
    exact nests_aliasMap depth map

theorem nests_configuration (configuration : Configuration) :
    Nests depthLimit configuration.toJson := by
  cases configuration with
  | flat options => exact nests_options 124 options
  | nested options =>
      apply Nests.object
      intro member present
      rw [List.mem_singleton.1 present]
      exact nests_options 123 options

theorem namesOnce_targets (targets : Targets) : NamesOnce (Targets.toJson targets) := by
  cases targets with
  | none => exact .null
  | some targets =>
      apply NamesOnce.array
      intro item member
      obtain ⟨target, -, rfl⟩ := List.mem_map.1 member
      exact .string target

theorem namesOnce_aliasMap (map : AliasMap) : NamesOnce map.toJson := by
  apply NamesOnce.object
  · rw [List.map_map]
    exact map.distinctKeys
  · intro member present
    obtain ⟨entry, -, rfl⟩ := List.mem_map.1 present
    exact namesOnce_targets entry.2

theorem namesOnce_options (options : PathOptions) : NamesOnce options.toJson := by
  obtain ⟨baseUrl, paths⟩ := options
  apply NamesOnce.object
  · have different : baseUrlName ≠ pathsName := by decide
    cases baseUrl <;> cases paths <;> simp [different]
  · intro member present
    rcases List.mem_append.1 present with isBaseUrl | isPaths
    · obtain ⟨text, -, rfl⟩ := Option.map_eq_some_iff.1 (Option.mem_toList.1 isBaseUrl)
      exact .string text
    · obtain ⟨map, -, rfl⟩ := Option.map_eq_some_iff.1 (Option.mem_toList.1 isPaths)
      exact namesOnce_aliasMap map

theorem namesOnce_configuration (configuration : Configuration) :
    NamesOnce configuration.toJson := by
  cases configuration with
  | flat options => exact namesOnce_options options
  | nested options =>
      apply NamesOnce.object
      · simp
      · intro member present
        rw [List.mem_singleton.1 present]
        exact namesOnce_options options

end Written

/-! ## The value read back -/

namespace Json

theorem targets?_toJson (targets : Targets) : targets? (Targets.toJson targets) = some targets := by
  cases targets with
  | none => rfl
  | some targets =>
      have texts : (targets.map string).mapM text? = some targets := by
        rw [List.mapM_map]
        exact List.mapM_pure.trans (congrArg some (List.map_id targets))
      rw [Targets.toJson, targets?, texts]
      rfl

theorem optionalMap?_toJson (map : AliasMap) : optionalMap? map.toJson = some (some map) := by
  have decoded : ((fun member : Text × Json => (targets? member.2).map (member.1, ·))
      ∘ fun entry : Text × Targets => (entry.1, Targets.toJson entry.2)) = fun entry =>
        pure (id entry) := by
    funext entry
    simp only [Function.comp, targets?_toJson, Option.map_some]
    rfl
  have entries : aliases? (map.entries.map fun entry => (entry.1, Targets.toJson entry.2))
      = some map.entries := by
    unfold aliases?
    rw [List.mapM_map, decoded]
    exact List.mapM_pure.trans (congrArg some (List.map_id map.entries))
  unfold AliasMap.toJson optionalMap?
  simp only [entries, Option.map_some, OrderedMap.ofList_entries]

/-- Options are written without the members that are absent, and absent members
are read as null. -/
theorem options?_toJson (options : PathOptions) : options? options.toJson = some options := by
  obtain ⟨baseUrl, paths⟩ := options
  have isBaseUrl : memberOrNull? baseUrlName
      ((baseUrl.map fun text => (baseUrlName, string text)).toList
        ++ (paths.map fun map => (pathsName, map.toJson)).toList)
      = some ((baseUrl.map string).getD null) := by
    have different : pathsName ≠ baseUrlName := by decide
    cases baseUrl <;> cases paths <;> simp [memberOrNull?, different]
  have isPaths : memberOrNull? pathsName
      ((baseUrl.map fun text => (baseUrlName, string text)).toList
        ++ (paths.map fun map => (pathsName, map.toJson)).toList)
      = some ((paths.map AliasMap.toJson).getD null) := by
    have different : baseUrlName ≠ pathsName := by decide
    cases baseUrl <;> cases paths <;> simp [memberOrNull?, different]
  have readBaseUrl : optionalText? ((baseUrl.map string).getD null) = some baseUrl := by
    cases baseUrl <;> rfl
  have readPaths : optionalMap? ((paths.map AliasMap.toJson).getD null) = some paths := by
    cases paths with
    | none => rfl
    | some map => exact optionalMap?_toJson map
  unfold PathOptions.toJson options?
  simp only [isBaseUrl, isPaths, optionsOf?, readBaseUrl, readPaths, bind, Option.bind, pure]

/-- Flat options have no member of a project document. -/
theorem nestedOptions?_toJson (options : PathOptions) : nestedOptions? options.toJson = none := by
  obtain ⟨baseUrl, paths⟩ := options
  have absent : memberOrNull? compilerOptionsName
      ((baseUrl.map fun text => (baseUrlName, string text)).toList
        ++ (paths.map fun map => (pathsName, map.toJson)).toList)
      = some null := by
    have notBaseUrl : baseUrlName ≠ compilerOptionsName := by decide
    have notPaths : pathsName ≠ compilerOptionsName := by decide
    cases baseUrl <;> cases paths <;> simp [memberOrNull?, notBaseUrl, notPaths]
  unfold PathOptions.toJson nestedOptions?
  simp only [absent, bind, Option.bind, options?]

end Json

namespace Configuration

theorem ofJson_toJson (configuration : Configuration) :
    ofJson configuration.toJson = .ok configuration := by
  cases configuration with
  | flat options =>
      simp only [ofJson, ofJson?, toJson, Json.nestedOptions?_toJson, Json.options?_toJson,
        Option.map_some]
  | nested options =>
      have held : (Json.object [(compilerOptionsName, options.toJson)]).nestedOptions?
          = some options := by
        simp only [Json.nestedOptions?, Json.memberOrNull?, decide_true, List.filter_cons_of_pos,
          List.filter_nil, bind, Option.bind, Json.options?_toJson]
      simp only [ofJson, ofJson?, toJson, held]

/-- **Reading undoes writing.**  The text of a configuration leads back to the
configuration, in its shape, with its base URL and with its aliases in order,
and does so too when it is read as a value first. -/
theorem ofText_toText (configuration : Configuration) :
    ofText configuration.toText = .ok configuration
      ∧ ofMergedText configuration.toText = .ok configuration := by
  have nests := nests_configuration configuration
  constructor
  · unfold ofText toText
    rw [Json.readFront_render nests]
    simp only [liftFault, Outcome.ok_bind, ofJson_toJson]
    rfl
  · unfold ofMergedText toText
    rw [Json.readDocument_render nests]
    simp only [liftFault, Outcome.ok_bind,
      Json.merged_of_namesOnce (namesOnce_configuration configuration), ofJson_toJson]

end Configuration

end PathAlias
