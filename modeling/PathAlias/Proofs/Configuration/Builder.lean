import PathAlias.Proofs.Configuration.Routes

/-!
Contract: options that are built up agree with a document that lists them.

Owns:
- options built up from a base URL and from aliases, one after another;
- flat documents that give the same base URL and list the same aliases;
- the main statement: both are one configuration, also where aliases repeat.

Does not own: aliases with null for targets, which no builder adds.

The builder inserts an alias into a map that is there already, and the decoder
inserts all of them at the end.  Both insert in the order of the list, so that
what a repeated alias does is a law of maps alone.
-/

set_option autoImplicit false

namespace PathAlias

/-! ## Options built up -/

namespace PathOptions

/-- Options built up: the base URL where there is one, and then one alias after
another. -/
def built (baseUrl : Option Text) (aliases : List (Text × List Text)) : PathOptions :=
  aliases.foldl (fun options entry => options.addAlias entry.1 entry.2)
    (baseUrl.elim empty empty.setBaseUrl)

end PathOptions

def aliasEntries (aliases : List (Text × List Text)) : List (Text × Targets) :=
  aliases.map fun entry => (entry.1, some entry.2)

namespace PathOptions

theorem foldl_addAlias (baseUrl : Option Text) (map : AliasMap)
    (aliases : List (Text × List Text)) :
    aliases.foldl (fun options entry => addAlias options entry.1 entry.2) ⟨baseUrl, some map⟩
      = ⟨baseUrl, some ((aliasEntries aliases).foldl
          (fun map entry => map.insert entry.1 entry.2) map)⟩ := by
  induction aliases generalizing map with
  | nil => rfl
  | cons entry rest inductionHypothesis =>
      rw [List.foldl_cons]
      exact inductionHypothesis (map.insert entry.1 (some entry.2))

theorem built_eq (baseUrl : Option Text) {aliases : List (Text × List Text)}
    (nonempty : aliases ≠ []) :
    built baseUrl aliases = ⟨baseUrl, some (.ofList (aliasEntries aliases))⟩ := by
  obtain ⟨first, rest, rfl⟩ := List.exists_cons_of_ne_nil nonempty
  -- the first alias opens the map that the others go into
  have opened : (baseUrl.elim empty empty.setBaseUrl).addAlias first.1 first.2
      = ⟨baseUrl, some (OrderedMap.empty.insert first.1 (some first.2))⟩ := by
    cases baseUrl <;> rfl
  unfold built
  rw [List.foldl_cons, opened, foldl_addAlias]
  rfl

end PathOptions

/-! ## Documents that list aliases -/

namespace Json

def aliasMembers (aliases : List (Text × List Text)) : List (Text × Json) :=
  aliases.map fun entry => (entry.1, .array (entry.2.map .string))

/-- The members of a flat document that gives a base URL, or none, and lists
aliases.  Other members may stand among them. -/
structure ListsAliases (baseUrl : Option Text) (aliases : List (Text × List Text))
    (members : List (Text × Json)) : Prop where
  flat : compilerOptionsName ∉ members.map Prod.fst
  givesBaseUrl : ∃ value, Gives baseUrlName members value ∧ DescribesText value baseUrl
  givesPaths : Gives pathsName members (.object (aliasMembers aliases))

theorem describesAliases_aliasMembers (aliases : List (Text × List Text)) :
    DescribesAliases (aliasMembers aliases) (aliasEntries aliases) := by
  induction aliases with
  | nil => exact .nil
  | cons entry rest inductionHypothesis =>
      exact .cons ⟨rfl, .array entry.2⟩ inductionHypothesis

theorem ListsAliases.describes {baseUrl : Option Text} {aliases : List (Text × List Text)}
    {members : List (Text × Json)} (lists : ListsAliases baseUrl aliases members) :
    DescribesOptions (.object members) ⟨baseUrl, some (.ofList (aliasEntries aliases))⟩ := by
  obtain ⟨value, gives, describes⟩ := lists.givesBaseUrl
  exact .object gives lists.givesPaths describes
    (.object (describesAliases_aliasMembers aliases))

def flatMembers (baseUrl : Option Text) (aliases : List (Text × List Text)) :
    List (Text × Json) :=
  (baseUrl.map fun text => (baseUrlName, Json.string text)).toList
    ++ [(pathsName, .object (aliasMembers aliases))]

theorem listsAliases_flatMembers (baseUrl : Option Text) (aliases : List (Text × List Text)) :
    ListsAliases baseUrl aliases (flatMembers baseUrl aliases) where
  flat := by
    have notBaseUrl : baseUrlName ≠ compilerOptionsName := by decide
    have notPaths : pathsName ≠ compilerOptionsName := by decide
    cases baseUrl <;> simp [flatMembers, notBaseUrl.symm, notPaths.symm]
  givesBaseUrl := by
    have different : baseUrlName ≠ pathsName := by decide
    cases baseUrl with
    | none => exact ⟨.null, .absent (by simpa [flatMembers] using different), .null⟩
    | some text =>
        have gives := @Gives.present baseUrlName [] [(pathsName, .object (aliasMembers aliases))]
          (.string text) (by simp) (by simpa using different)
        exact ⟨.string text, gives, .string text⟩
  givesPaths := by
    have different : pathsName ≠ baseUrlName := by decide
    refine .present ?_ (by simp)
    cases baseUrl <;> simp [different]

theorem nests_flatMembers (depth : Nat) (baseUrl : Option Text)
    (aliases : List (Text × List Text)) :
    Nests (depth + 3) (.object (flatMembers baseUrl aliases)) := by
  apply Nests.object
  intro member present
  rcases List.mem_append.1 present with isBaseUrl | isPaths
  · obtain ⟨text, -, rfl⟩ := Option.map_eq_some_iff.1 (Option.mem_toList.1 isBaseUrl)
    exact .string text
  · rw [List.mem_singleton.1 isPaths]
    apply Nests.object
    intro member listed
    obtain ⟨entry, -, rfl⟩ := List.mem_map.1 listed
    apply Nests.array
    intro item target
    obtain ⟨text, -, rfl⟩ := List.mem_map.1 target
    exact .string text

end Json

/-! ## Agreement -/

namespace Configuration

theorem ofText_of_listsAliases {baseUrl : Option Text} {aliases : List (Text × List Text)}
    (nonempty : aliases ≠ []) {text : Text} {members : List (Text × Json)}
    (read : Json.readDocument text = .ok (.object members))
    (lists : Json.ListsAliases baseUrl aliases members) :
    ofText text = .ok (.flat (.built baseUrl aliases)) := by
  rw [ofText_of_readDocument read, ofJson_eq_flat_iff, PathOptions.built_eq baseUrl nonempty]
  constructor
  · rw [Json.nestedOptions?_of_gives (.absent lists.flat)]
    rfl
  · exact Json.options?_eq_some_iff.2 lists.describes

/-- **Building options up and listing them in a document is one configuration.**
Each alias stands where it is given first, with the targets that it is given
last. -/
theorem ofText_eq_built (baseUrl : Option Text) {aliases : List (Text × List Text)}
    (nonempty : aliases ≠ []) :
    (∀ text members, Json.readDocument text = .ok (.object members) →
        Json.ListsAliases baseUrl aliases members →
        ofText text = .ok (.flat (.built baseUrl aliases)))
      ∧ ofText (Json.object (Json.flatMembers baseUrl aliases)).render
        = .ok (.flat (.built baseUrl aliases))
      ∧ ∃ map, PathOptions.built baseUrl aliases = ⟨baseUrl, some map⟩
        ∧ map.Collects (aliasEntries aliases) := by
  refine ⟨fun text members read lists => ofText_of_listsAliases nonempty read lists, ?_, ?_⟩
  · exact ofText_of_listsAliases nonempty
      (Json.readDocument_render (Json.nests_flatMembers 124 baseUrl aliases))
      (Json.listsAliases_flatMembers baseUrl aliases)
  · exact ⟨_, PathOptions.built_eq baseUrl nonempty, OrderedMap.collects_ofList _⟩

def repeatedAlias : List (Text × List Text) :=
  [("@z/*".toList, ["z/*".toList]), ("@a/*".toList, []),
    ("@z/*".toList, ["lib/*".toList, "z/*".toList])]

theorem ofText_eq_built_repeatedAlias :
    repeatedAlias ≠ []
      ∧ ofText (Json.object (Json.flatMembers (some "src".toList) repeatedAlias)).render
        = .ok (.flat (.built (some "src".toList) repeatedAlias))
      ∧ (PathOptions.built (some "src".toList) repeatedAlias).paths.map OrderedMap.entries
        = some [("@z/*".toList, some ["lib/*".toList, "z/*".toList]), ("@a/*".toList, some [])] := by
  have nonempty : repeatedAlias ≠ [] := List.cons_ne_nil _ _
  exact ⟨nonempty, (ofText_eq_built (some "src".toList) nonempty).2.1, by decide +kernel⟩

end Configuration

end PathAlias
