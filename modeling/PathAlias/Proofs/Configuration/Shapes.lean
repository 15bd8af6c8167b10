import Mathlib.Data.List.Forall2
import PathAlias.Configuration.Document
import PathAlias.Proofs.Json.Merged

/-!
Contract: which values describe which options, and which shape a document has.

Owns:
- what an object gives for a name that it holds at most once;
- base URLs, targets, aliases and options that a value describes, as relations
  beside their decoders;
- the main statement: which shape is read from an object with compiler options
  of its own, and when.

Does not own: texts, or members that are merged.

The relations say how a value is written, and name no decoder.  That a member
does not fit is then a statement about the value: no options are described by
it.
-/

set_option autoImplicit false

namespace PathAlias

namespace Json

/-! ## Members -/

/-- What members give for a name that they hold at most once: the value beside
it, or null where the name is absent. -/
inductive Gives (name : Text) : List (Text × Json) → Json → Prop where
  | absent {members : List (Text × Json)} (unnamed : name ∉ members.map Prod.fst) :
      Gives name members .null
  | present {before after : List (Text × Json)} {value : Json}
      (first : name ∉ before.map Prod.fst) (last : name ∉ after.map Prod.fst) :
      Gives name (before ++ (name, value) :: after) value

theorem filter_name_eq_nil_iff {name : Text} {members : List (Text × Json)} :
    members.filter (fun member => member.1 = name) = [] ↔ name ∉ members.map Prod.fst := by
  rw [List.filter_eq_nil_iff, List.mem_map, not_exists]
  simp only [decide_eq_true_eq, not_and]

theorem memberOrNull?_eq_some_iff {name : Text} {members : List (Text × Json)} {value : Json} :
    memberOrNull? name members = some value ↔ Gives name members value := by
  constructor
  · intro found
    unfold memberOrNull? at found
    split at found
    · rename_i unnamed
      cases found
      exact .absent (filter_name_eq_nil_iff.1 unnamed)
    · rename_i heldName held alone
      cases found
      obtain ⟨before, after, rfl, none, isName, rest⟩ := List.filter_eq_cons_iff.1 alone
      have same : heldName = name := by simpa using isName
      subst same
      refine .present (filter_name_eq_nil_iff.1 ?_) (filter_name_eq_nil_iff.1 rest)
      exact List.filter_eq_nil_iff.2 none
    · cases found
  · intro gives
    unfold memberOrNull?
    cases gives with
    | absent unnamed => rw [filter_name_eq_nil_iff.2 unnamed]
    | present first last =>
        rw [List.filter_append, filter_name_eq_nil_iff.2 first, List.nil_append,
          List.filter_cons_of_pos (by simp), filter_name_eq_nil_iff.2 last]

theorem gives_of_mem {name : Text} {members : List (Text × Json)} {value : Json}
    (distinct : (members.map Prod.fst).Nodup) (member : (name, value) ∈ members) :
    Gives name members value := by
  obtain ⟨before, after, rfl⟩ := List.append_of_mem member
  rw [List.map_append, List.map_cons, List.nodup_append, List.nodup_cons] at distinct
  obtain ⟨-, ⟨last, -⟩, apart⟩ := distinct
  refine .present (fun earlier => ?_) last
  exact apart name earlier name List.mem_cons_self rfl

/-! ## Descriptions -/

inductive DescribesText : Json → Option Text → Prop where
  | null : DescribesText .null none
  | string (text : Text) : DescribesText (.string text) (some text)

inductive DescribesTargets : Json → Targets → Prop where
  | null : DescribesTargets .null none
  | array (targets : List Text) : DescribesTargets (.array (targets.map .string)) (some targets)

def DescribesAliases (members : List (Text × Json)) (entries : List (Text × Targets)) : Prop :=
  List.Forall₂ (fun member entry => member.1 = entry.1 ∧ DescribesTargets member.2 entry.2)
    members entries

inductive DescribesPaths : Json → Option AliasMap → Prop where
  | null : DescribesPaths .null none
  | object {members : List (Text × Json)} {entries : List (Text × Targets)}
      (each : DescribesAliases members entries) :
      DescribesPaths (.object members) (some (.ofList entries))

/-- A value is an object, or a list of at most two items, with a base URL and
with aliases.  What is missing counts as null. -/
inductive DescribesOptions : Json → PathOptions → Prop where
  | object {members : List (Text × Json)} {baseUrl paths : Json} {options : PathOptions}
      (givesBaseUrl : Gives baseUrlName members baseUrl)
      (givesPaths : Gives pathsName members paths)
      (describesBaseUrl : DescribesText baseUrl options.baseUrl)
      (describesPaths : DescribesPaths paths options.paths) :
      DescribesOptions (.object members) options
  | array {items : List Json} {options : PathOptions} (short : items.length ≤ 2)
      (describesBaseUrl : DescribesText (items[0]?.getD .null) options.baseUrl)
      (describesPaths : DescribesPaths (items[1]?.getD .null) options.paths) :
      DescribesOptions (.array items) options

/-! ## Decoders -/

theorem mapM_eq_some_iff {α β : Type} {decode : α → Option β} {items : List α}
    {results : List β} :
    items.mapM decode = some results
      ↔ List.Forall₂ (fun item result => decode item = some result) items results := by
  induction items generalizing results with
  | nil => simp [eq_comm]
  | cons item rest inductionHypothesis =>
      rw [List.mapM_cons, List.forall₂_cons_left_iff]
      simp only [Option.bind_eq_bind, Option.bind_eq_some_iff, Option.pure_def, Option.some.injEq,
        inductionHypothesis]
      constructor
      · rintro ⟨result, decoded, others, decodedRest, rfl⟩
        exact ⟨result, others, decoded, decodedRest, rfl⟩
      · rintro ⟨result, others, decoded, decodedRest, rfl⟩
        exact ⟨result, decoded, others, decodedRest, rfl⟩

theorem optionalText?_eq_some_iff {value : Json} {text : Option Text} :
    value.optionalText? = some text ↔ DescribesText value text := by
  constructor
  · intro decoded
    unfold optionalText? at decoded
    split at decoded
    · cases decoded
      exact .null
    · cases decoded
      exact .string _
    · cases decoded
  · intro describes
    cases describes with
    | null => rfl
    | string text => rfl

theorem text?_eq_some_iff {value : Json} {text : Text} :
    value.text? = some text ↔ value = .string text := by
  cases value <;> simp [text?]

theorem mapM_text?_eq_some_iff {items : List Json} {texts : List Text} :
    items.mapM text? = some texts ↔ items = texts.map .string := by
  rw [mapM_eq_some_iff]
  simp only [text?_eq_some_iff]
  rw [← List.forall₂_map_right_iff, List.forall₂_eq_eq_eq]

theorem targets?_eq_some_iff {value : Json} {targets : Targets} :
    value.targets? = some targets ↔ DescribesTargets value targets := by
  constructor
  · intro decoded
    unfold targets? at decoded
    split at decoded
    · cases decoded
      exact .null
    · obtain ⟨texts, isTexts, isTargets⟩ := Option.map_eq_some_iff.1 decoded
      rw [mapM_text?_eq_some_iff.1 isTexts, ← isTargets]
      exact .array texts
    · cases decoded
  · intro describes
    cases describes with
    | null => rfl
    | array targets => rw [targets?, mapM_text?_eq_some_iff.2 rfl, Option.map_some]

theorem aliases?_eq_some_iff {members : List (Text × Json)} {entries : List (Text × Targets)} :
    aliases? members = some entries ↔ DescribesAliases members entries := by
  have decodedAs : ∀ (member : Text × Json) (entry : Text × Targets),
      (targets? member.2).map (member.1, ·) = some entry
        ↔ member.1 = entry.1 ∧ DescribesTargets member.2 entry.2 := by
    intro member entry
    rw [← targets?_eq_some_iff, Option.map_eq_some_iff]
    constructor
    · rintro ⟨targets, decoded, rfl⟩
      exact ⟨rfl, decoded⟩
    · intro decoded
      exact ⟨entry.2, decoded.2, Prod.ext decoded.1 rfl⟩
  unfold aliases? DescribesAliases
  rw [mapM_eq_some_iff]
  simp only [decodedAs]

theorem optionalMap?_eq_some_iff {value : Json} {paths : Option AliasMap} :
    value.optionalMap? = some paths ↔ DescribesPaths value paths := by
  constructor
  · intro decoded
    unfold optionalMap? at decoded
    split at decoded
    · cases decoded
      exact .null
    · obtain ⟨entries, isEntries, isPaths⟩ := Option.map_eq_some_iff.1 decoded
      rw [← isPaths]
      exact .object (aliases?_eq_some_iff.1 isEntries)
    · cases decoded
  · intro describes
    cases describes with
    | null => rfl
    | object each => rw [optionalMap?, aliases?_eq_some_iff.2 each, Option.map_some]

theorem optionsOf?_eq_some_iff {baseUrl paths : Json} {options : PathOptions} :
    optionsOf? baseUrl paths = some options
      ↔ DescribesText baseUrl options.baseUrl ∧ DescribesPaths paths options.paths := by
  obtain ⟨text, map⟩ := options
  unfold optionsOf?
  rw [← optionalText?_eq_some_iff, ← optionalMap?_eq_some_iff]
  simp only [Option.bind_eq_bind, Option.bind_eq_some_iff, Option.pure_def, Option.some.injEq,
    PathOptions.mk.injEq]
  constructor
  · rintro ⟨_, decodedText, _, decodedMap, rfl, rfl⟩
    exact ⟨decodedText, decodedMap⟩
  · rintro ⟨decodedText, decodedMap⟩
    exact ⟨text, decodedText, map, decodedMap, rfl, rfl⟩

theorem options?_eq_some_iff {value : Json} {options : PathOptions} :
    value.options? = some options ↔ DescribesOptions value options := by
  constructor
  · intro decoded
    unfold options? at decoded
    split at decoded
    · simp only [Option.bind_eq_bind, Option.bind_eq_some_iff] at decoded
      obtain ⟨baseUrl, givesBaseUrl, paths, givesPaths, decoded⟩ := decoded
      obtain ⟨describesBaseUrl, describesPaths⟩ := optionsOf?_eq_some_iff.1 decoded
      exact .object (memberOrNull?_eq_some_iff.1 givesBaseUrl)
        (memberOrNull?_eq_some_iff.1 givesPaths) describesBaseUrl describesPaths
    iterate 3
      · obtain ⟨describesBaseUrl, describesPaths⟩ := optionsOf?_eq_some_iff.1 decoded
        exact .array (by simp) describesBaseUrl describesPaths
    · cases decoded
  · intro describes
    cases describes with
    | object givesBaseUrl givesPaths describesBaseUrl describesPaths =>
        simp only [options?, memberOrNull?_eq_some_iff.2 givesBaseUrl,
          memberOrNull?_eq_some_iff.2 givesPaths, Option.bind_eq_bind, Option.bind_some]
        exact optionsOf?_eq_some_iff.2 ⟨describesBaseUrl, describesPaths⟩
    | @array items options short describesBaseUrl describesPaths =>
        match items, short with
        | [], _ => exact optionsOf?_eq_some_iff.2 ⟨describesBaseUrl, describesPaths⟩
        | [_], _ => exact optionsOf?_eq_some_iff.2 ⟨describesBaseUrl, describesPaths⟩
        | [_, _], _ => exact optionsOf?_eq_some_iff.2 ⟨describesBaseUrl, describesPaths⟩

theorem options?_eq_none_iff {value : Json} :
    value.options? = none ↔ ∀ options, ¬ DescribesOptions value options := by
  simp only [Option.eq_none_iff_forall_not_mem, Option.mem_def, options?_eq_some_iff]

theorem nestedOptions?_of_gives {members : List (Text × Json)} {inner : Json}
    (gives : Gives compilerOptionsName members inner) :
    (Json.object members).nestedOptions? = inner.options? := by
  simp only [nestedOptions?, memberOrNull?_eq_some_iff.2 gives, Option.bind_eq_bind,
    Option.bind_some]

theorem nestedOptions?_eq_some_iff {value : Json} {options : PathOptions} :
    value.nestedOptions? = some options
      ↔ ∃ members inner, value = .object members ∧ Gives compilerOptionsName members inner
        ∧ DescribesOptions inner options := by
  constructor
  · intro decoded
    unfold nestedOptions? at decoded
    split at decoded
    · rename_i members
      obtain ⟨inner, held, decodedInner⟩ := Option.bind_eq_some_iff.1 decoded
      exact ⟨members, inner, rfl, memberOrNull?_eq_some_iff.1 held,
        options?_eq_some_iff.1 decodedInner⟩
    · cases decoded
  · rintro ⟨members, inner, rfl, gives, describes⟩
    rw [nestedOptions?_of_gives gives, options?_eq_some_iff]
    exact describes

end Json

/-! ## Shapes -/

namespace Configuration

theorem ofJson_eq_nested_iff {value : Json} {options : PathOptions} :
    ofJson value = .ok (.nested options) ↔ value.nestedOptions? = some options := by
  unfold ofJson ofJson?
  cases value.nestedOptions? with
  | some found => simp
  | none => cases value.options? <;> simp

theorem ofJson_eq_flat_iff {value : Json} {options : PathOptions} :
    ofJson value = .ok (.flat options)
      ↔ value.nestedOptions? = none ∧ value.options? = some options := by
  unfold ofJson ofJson?
  cases value.nestedOptions? with
  | some found => simp
  | none => cases value.options? <;> simp

theorem ofJson_eq_error_iff {value : Json} {cause : ConfigurationError} :
    ofJson value = .error cause
      ↔ cause = .unknownShape ∧ value.nestedOptions? = none ∧ value.options? = none := by
  unfold ofJson ofJson?
  cases value.nestedOptions? with
  | some found => simp
  | none => cases value.options? <;> simp [eq_comm]

/-- **Compiler options of its own decide the shape of an object** as long as they
describe options at all: these are read, and nothing beside them.  Where they
describe none, they are passed over, and the object around them is read as flat
options if it can be. -/
theorem ofJson_compilerOptions_iff {members : List (Text × Json)} {inner : Json}
    (distinct : (members.map Prod.fst).Nodup) (held : (compilerOptionsName, inner) ∈ members) :
    (∀ options, ofJson (.object members) = .ok (.nested options)
        ↔ inner.DescribesOptions options)
      ∧ (∀ options, ofJson (.object members) = .ok (.flat options)
        ↔ (∀ other, ¬ inner.DescribesOptions other)
          ∧ (Json.object members).DescribesOptions options)
      ∧ (∀ cause, ofJson (.object members) = .error cause
        ↔ cause = .unknownShape ∧ (∀ other, ¬ inner.DescribesOptions other)
          ∧ ∀ other, ¬ (Json.object members).DescribesOptions other) := by
  have nested := Json.nestedOptions?_of_gives (Json.gives_of_mem distinct held)
  refine ⟨fun options => ?_, fun options => ?_, fun cause => ?_⟩
  · rw [ofJson_eq_nested_iff, nested, Json.options?_eq_some_iff]
  · rw [ofJson_eq_flat_iff, nested, Json.options?_eq_none_iff, Json.options?_eq_some_iff]
  · rw [ofJson_eq_error_iff, nested, Json.options?_eq_none_iff, Json.options?_eq_none_iff]

def sourceOptions : Json :=
  .object [(baseUrlName, .string "src".toList), ("strict".toList, .boolean true),
    (pathsName, .object [("@a/*".toList, .array [.string "a/*".toList])])]

/-- A project document with another base URL outside its compiler options. -/
def projectDocument : List (Text × Json) :=
  [(compilerOptionsName, sourceOptions), (baseUrlName, .string "ignored".toList)]

theorem ofJson_compilerOptions_iff_projectDocument :
    (projectDocument.map Prod.fst).Nodup
      ∧ (compilerOptionsName, sourceOptions) ∈ projectDocument
      ∧ ofJson (.object projectDocument) = .ok (.nested ⟨some "src".toList,
          some (.ofList [("@a/*".toList, some ["a/*".toList])])⟩) := by
  have distinct : (projectDocument.map Prod.fst).Nodup := by decide
  have held : (compilerOptionsName, sourceOptions) ∈ projectDocument := List.mem_cons_self
  have decoded : sourceOptions.options? = some ⟨some "src".toList,
      some (.ofList [("@a/*".toList, some ["a/*".toList])])⟩ := by rfl
  refine ⟨distinct, held, ?_⟩
  exact ((ofJson_compilerOptions_iff distinct held).1 _).2 (Json.options?_eq_some_iff.1 decoded)

/-- Compiler options with a target that stands alone, not in a list. -/
def mistypedOptions : Json :=
  .object [(baseUrlName, .string "src".toList),
    (pathsName, .object [("@/*".toList, .string "src/*".toList)])]

def mistypedDocument : List (Text × Json) :=
  [(compilerOptionsName, mistypedOptions),
    (pathsName, .object [("@/*".toList, .array [.string "lib/*".toList])])]

/-- Compiler options that are there and not null can lose: one mistyped target is
enough, and the aliases around them are read instead. -/
theorem ofJson_mistypedDocument :
    (mistypedDocument.map Prod.fst).Nodup
      ∧ (compilerOptionsName, mistypedOptions) ∈ mistypedDocument
      ∧ mistypedOptions ≠ .null
      ∧ ofJson (.object mistypedDocument)
        = .ok (.flat ⟨none, some (.ofList [("@/*".toList, some ["lib/*".toList])])⟩) := by
  refine ⟨by decide, List.mem_cons_self, ?_, by rfl⟩
  unfold mistypedOptions
  simp

end Configuration

end PathAlias
