import PathAlias.Proofs.Configuration.Shapes
import PathAlias.Proofs.Json.RoundTrip

/-!
Contract: a configuration read from its text, and read from the merged value of
the text.

Owns:
- what merging leaves of members, and of the options that a value describes;
- the agreement of both routes on a document in which no object repeats a name;
- documents that repeat names, where the second route reads whatever the first
  one does; this says what the routes share once they can differ.

Does not own: texts that are not a document.  The two routes may find different
faults in them.

Merging keeps the last value of a name.  Where a name is repeated that the
decoder knows, the first route refuses the options, and the second one does not
see the repetition.
-/

set_option autoImplicit false

namespace PathAlias

namespace Json

/-! ## Merged members -/

theorem merged_object (members : List (Text × Json)) :
    merged (.object members) = .object
      (OrderedMap.ofList (members.map fun member => (member.1, merged member.2))).entries := by
  rw [merged, mergedMembers_eq_map, OrderedMap.entries_ofList]

theorem Gives.ofList {name : Text} {members : List (Text × Json)} {value : Json}
    (gives : Gives name members value) : Gives name (OrderedMap.ofList members).entries value := by
  have collects := OrderedMap.collects_ofList members
  cases gives with
  | absent unnamed =>
      exact .absent fun named => unnamed (collects.mem_keys_iff.1 named)
  | present first last =>
      apply gives_of_mem (OrderedMap.ofList _).distinctKeys
      exact OrderedMap.mem_of_get?_eq_some (collects.values _ _ _ _ rfl last)

theorem Gives.merged {name : Text} {members : List (Text × Json)} {value : Json}
    (gives : Gives name members value) :
    Gives name (OrderedMap.ofList (members.map fun member => (member.1, member.2.merged))).entries
      value.merged := by
  apply Gives.ofList
  cases gives with
  | absent unnamed =>
      apply Gives.absent
      rw [List.map_map]
      exact unnamed
  | present first last =>
      rw [List.map_append, List.map_cons]
      apply Gives.present
      · rw [List.map_map]
        exact first
      · rw [List.map_map]
        exact last

/-! ## Merged descriptions -/

theorem DescribesText.merged {value : Json} {text : Option Text}
    (describes : DescribesText value text) : DescribesText value.merged text := by
  cases describes with
  | null => exact .null
  | string text => exact .string text

theorem DescribesTargets.merged_eq {value : Json} {targets : Targets}
    (describes : DescribesTargets value targets) : value.merged = value := by
  cases describes with
  | null => rfl
  | array targets =>
      rw [Json.merged, mergedItems_eq_map, List.map_map]
      rfl

theorem DescribesAliases.ofList {members : List (Text × Json)} {entries : List (Text × Targets)}
    (each : DescribesAliases members entries) :
    DescribesAliases (OrderedMap.ofList members).entries (OrderedMap.ofList entries).entries := by
  rw [OrderedMap.entries_ofList, OrderedMap.entries_ofList]
  refine List.rel_foldl ?_ .nil each
  intro _ _ alike _ _ same
  exact forall₂_placeEntry alike same

theorem DescribesAliases.map_merged {members : List (Text × Json)}
    {entries : List (Text × Targets)} (each : DescribesAliases members entries) :
    (members.map fun member => (member.1, member.2.merged)) = members := by
  unfold DescribesAliases at each
  induction each with
  | nil => rfl
  | cons first _ inductionHypothesis =>
      rw [List.map_cons, inductionHypothesis, first.2.merged_eq]

theorem DescribesPaths.merged {value : Json} {paths : Option AliasMap}
    (describes : DescribesPaths value paths) : DescribesPaths value.merged paths := by
  cases describes with
  | null => exact .null
  | @object members entries each =>
      rw [merged_object, each.map_merged, ← OrderedMap.ofList_entries (OrderedMap.ofList entries)]
      exact .object each.ofList

/-- Merging repeated members loses no options. -/
theorem DescribesOptions.merged {value : Json} {options : PathOptions}
    (describes : DescribesOptions value options) : DescribesOptions value.merged options := by
  cases describes with
  | object givesBaseUrl givesPaths describesBaseUrl describesPaths =>
      rw [merged_object]
      exact .object givesBaseUrl.merged givesPaths.merged describesBaseUrl.merged
        describesPaths.merged
  | @array items options short describesBaseUrl describesPaths =>
      have itemMerged : ∀ index : Nat,
          (items.map Json.merged)[index]?.getD .null = (items[index]?.getD .null).merged := by
        intro index
        rw [List.getElem?_map]
        cases items[index]? <;> rfl
      rw [Json.merged, mergedItems_eq_map]
      refine .array (by rwa [List.length_map]) ?_ ?_
      · rw [itemMerged]
        exact describesBaseUrl.merged
      · rw [itemMerged]
        exact describesPaths.merged

theorem readDocument_eq_ok_iff {text : Text} {value : Json} :
    readDocument text = .ok value
      ↔ ∃ rest, readFront text = .ok (value, rest) ∧ readEnd rest = .ok () := by
  simp only [readDocument, Outcome.bind_eq_ok_iff, Outcome.pure_eq_ok, Except.ok.injEq]
  constructor
  · rintro ⟨⟨_, rest⟩, front, _, ended, rfl⟩
    exact ⟨rest, front, ended⟩
  · rintro ⟨rest, front, ended⟩
    exact ⟨(value, rest), front, (), ended, rfl⟩

end Json

/-! ## Routes -/

namespace Configuration

theorem liftFault_eq_ok_iff {Result : Type} {found : Except Json.Fault Result} {result : Result} :
    liftFault found = .ok result ↔ found = .ok result := by
  cases found <;> simp [liftFault]

theorem ofText_of_readDocument {text : Text} {value : Json}
    (read : Json.readDocument text = .ok value) : ofText text = ofJson value := by
  obtain ⟨rest, front, ended⟩ := Json.readDocument_eq_ok_iff.1 read
  unfold ofText
  rw [front]
  simp only [liftFault, Outcome.ok_bind, ended, bind_pure]

theorem ofMergedText_of_readDocument {text : Text} {value : Json}
    (read : Json.readDocument text = .ok value) : ofMergedText text = ofJson value.merged := by
  unfold ofMergedText
  rw [read]
  rfl

/-- **Both routes agree on a document in which no object repeats a name.**  They
find one configuration, or they both find that the value has no accepted shape. -/
theorem ofText_eq_ofMergedText {text : Text} {value : Json}
    (read : Json.readDocument text = .ok value) (once : value.NamesOnce) :
    (∃ configuration, ofText text = .ok configuration ∧ ofMergedText text = .ok configuration)
      ∨ (ofText text = .error .unknownShape ∧ ofMergedText text = .error .unknownShape) := by
  rw [ofText_of_readDocument read, ofMergedText_of_readDocument read,
    Json.merged_of_namesOnce once]
  cases judged : ofJson value with
  | ok configuration => exact .inl ⟨configuration, rfl, rfl⟩
  | error cause =>
      obtain ⟨rfl, -⟩ := ofJson_eq_error_iff.1 judged
      exact .inr ⟨rfl, rfl⟩

/-- A project document whose compiler options are a list, beside aliases that are
none. -/
def listedOptions : Json :=
  .object [(compilerOptionsName, .array [.string "src".toList]), (pathsName, .boolean true)]

theorem ofText_eq_ofMergedText_listedOptions :
    Json.readDocument listedOptions.render = .ok listedOptions
      ∧ listedOptions.NamesOnce
      ∧ ofText listedOptions.render = .ok (.nested ⟨some "src".toList, none⟩)
      ∧ ofMergedText listedOptions.render = .ok (.nested ⟨some "src".toList, none⟩) := by
  have nests : Json.Nests Json.depthLimit listedOptions := by
    apply Json.Nests.object
    simp only [List.forall_mem_cons, List.not_mem_nil, false_implies, implies_true, and_true]
    exact ⟨.array (by simp [Json.Nests.string]), .boolean true⟩
  have once : listedOptions.NamesOnce := by
    apply Json.NamesOnce.object (by decide)
    simp only [List.forall_mem_cons, List.not_mem_nil, false_implies, implies_true, and_true]
    exact ⟨.array (by simp [Json.NamesOnce.string]), .boolean true⟩
  have read := Json.readDocument_render nests
  have found : ofText listedOptions.render = .ok (.nested ⟨some "src".toList, none⟩) :=
    (ofText_of_readDocument read).trans (by rfl)
  refine ⟨read, once, found, ?_⟩
  rcases ofText_eq_ofMergedText read once with ⟨configuration, fromText, merged⟩ | ⟨fault, -⟩
  · rw [merged, ← fromText, found]
  · rw [found] at fault
    cases fault

/-! ## Documents that repeat names -/

theorem ofText_eq_ok_iff {text : Text} {configuration : Configuration} :
    ofText text = .ok configuration
      ↔ ∃ value, Json.readDocument text = .ok value ∧ ofJson value = .ok configuration := by
  constructor
  · intro found
    simp only [ofText, Outcome.bind_eq_ok_iff, liftFault_eq_ok_iff, Outcome.pure_eq_ok,
      Except.ok.injEq] at found
    obtain ⟨⟨value, rest⟩, front, judgement, judged, _, ended, rfl⟩ := found
    exact ⟨value, Json.readDocument_eq_ok_iff.2 ⟨rest, front, ended⟩, judged⟩
  · rintro ⟨value, read, judged⟩
    rw [ofText_of_readDocument read, judged]

/-- **Merging loses no configuration.**  What is read from a text is read from
its merged value too.  Only flat options can turn into those of a project, where
merging mends compiler options that did not fit. -/
theorem ofMergedText_of_ofText {text : Text} {configuration : Configuration}
    (found : ofText text = .ok configuration) :
    ofMergedText text = .ok configuration
      ∨ ∃ options inner, configuration = .flat options
        ∧ ofMergedText text = .ok (.nested inner) := by
  obtain ⟨value, read, judged⟩ := ofText_eq_ok_iff.1 found
  rw [ofMergedText_of_readDocument read]
  cases configuration with
  | nested options =>
      left
      obtain ⟨members, inner, rfl, gives, describes⟩ :=
        Json.nestedOptions?_eq_some_iff.1 (ofJson_eq_nested_iff.1 judged)
      rw [ofJson_eq_nested_iff, Json.merged_object, Json.nestedOptions?_eq_some_iff]
      exact ⟨_, _, rfl, gives.merged, describes.merged⟩
  | flat options =>
      have described := Json.options?_eq_some_iff.1 (ofJson_eq_flat_iff.1 judged).2
      have kept := Json.options?_eq_some_iff.2 described.merged
      cases nested : value.merged.nestedOptions? with
      | none => exact .inl (ofJson_eq_flat_iff.2 ⟨nested, kept⟩)
      | some inner => exact .inr ⟨options, inner, rfl, ofJson_eq_nested_iff.2 nested⟩

end Configuration

end PathAlias
