import PathAlias.Proofs.Configuration.Shapes

/-!
Contract: what a configuration does not read does not matter to it.

Owns:
- members put in among others, in any places, under names that are not read;
- documents with such members at their top, in their compiler options, or both;
- the law that a decoder of one member sees the same before and after;
- the main statement: a document with additions has the same configuration, or
  none just as before.

Does not own: members whose name is read.

Compiler options are known to one shape of a document and unknown to the other.
What is put into them may not show in the first shape, and cannot in the second,
so that the choice between the shapes stays the same.
-/

set_option autoImplicit false

namespace PathAlias

def optionNames : List Text := [baseUrlName, pathsName]

def documentNames : List Text := compilerOptionsName :: optionNames

namespace Json

/-- Members with others put in among them, in any places and under names that
are not read.  The values of the members may change as far as `Kept` allows. -/
inductive Adds (read : List Text) (Kept : Text → Json → Json → Prop) :
    List (Text × Json) → List (Text × Json) → Prop where
  | nil : Adds read Kept [] []
  | keep {name : Text} {value other : Json} {members others : List (Text × Json)}
      (kept : Kept name value other) (rest : Adds read Kept members others) :
      Adds read Kept ((name, value) :: members) ((name, other) :: others)
  | add {name : Text} {value : Json} {members others : List (Text × Json)}
      (unread : name ∉ read) (rest : Adds read Kept members others) :
      Adds read Kept members ((name, value) :: others)

def AddsToOptions : List (Text × Json) → List (Text × Json) → Prop :=
  Adds optionNames fun _ value other => other = value

/-- A member of a document is kept as it is, or its compiler options are kept
with additions. -/
inductive KeepsMember : Text → Json → Json → Prop where
  | same (name : Text) (value : Json) : KeepsMember name value value
  | options {members others : List (Text × Json)} (added : AddsToOptions members others) :
      KeepsMember compilerOptionsName (.object members) (.object others)

/-- A document with additions, at its top and in its compiler options. -/
def AddsToDocument : List (Text × Json) → List (Text × Json) → Prop :=
  Adds documentNames KeepsMember

/-! ## One member -/

section

variable {read : List Text} {Kept : Text → Json → Json → Prop}
  {members others : List (Text × Json)} {name : Text}

theorem Adds.filter (added : Adds read Kept members others) (isRead : name ∈ read) :
    List.Forall₂ (fun member other => Kept name member.2 other.2)
      (members.filter fun member => member.1 = name) (others.filter fun other => other.1 = name) := by
  induction added with
  | nil => exact .nil
  | @keep heldName value other members others kept rest inductionHypothesis =>
      by_cases named : heldName = name
      · subst named
        rw [List.filter_cons_of_pos (by simp), List.filter_cons_of_pos (by simp)]
        exact .cons kept inductionHypothesis
      · rw [List.filter_cons_of_neg (by simpa using named),
          List.filter_cons_of_neg (by simpa using named)]
        exact inductionHypothesis
  | @add addedName value members others unread rest inductionHypothesis =>
      have different : addedName ≠ name := by
        rintro rfl
        exact unread isRead
      rw [List.filter_cons_of_neg (by simpa using different)]
      exact inductionHypothesis

/-- A decoder that does not see how a member was changed gives the same for it. -/
theorem Adds.bind_memberOrNull? {Result : Type} {decode : Json → Option Result}
    (added : Adds read Kept members others) (isRead : name ∈ read)
    (blind : ∀ value other, Kept name value other → decode other = decode value) :
    (memberOrNull? name others).bind decode = (memberOrNull? name members).bind decode := by
  have related := added.filter isRead
  unfold memberOrNull?
  generalize members.filter (fun member => member.1 = name) = before at related
  generalize others.filter (fun other => other.1 = name) = after at related
  cases related with
  | nil => rfl
  | @cons first _ firstRest _ kept rest =>
      cases rest with
      | nil => exact blind _ _ kept
      | cons _ _ => rfl

theorem Adds.memberOrNull?_eq (added : Adds read Kept members others) (isRead : name ∈ read)
    (unchanged : ∀ value other, Kept name value other → other = value) :
    memberOrNull? name others = memberOrNull? name members := by
  have same : (memberOrNull? name others).bind some = (memberOrNull? name members).bind some := by
    apply added.bind_memberOrNull? isRead
    intro value other kept
    rw [unchanged value other kept]
  rwa [Option.bind_fun_some, Option.bind_fun_some] at same

end

/-! ## Options and documents -/

variable {members others : List (Text × Json)}

theorem options?_of_memberOrNull?_eq
    (sameBaseUrl : memberOrNull? baseUrlName others = memberOrNull? baseUrlName members)
    (samePaths : memberOrNull? pathsName others = memberOrNull? pathsName members) :
    (Json.object others).options? = (Json.object members).options? := by
  simp only [options?, sameBaseUrl, samePaths]

theorem AddsToOptions.options?_eq (added : AddsToOptions members others) :
    (Json.object others).options? = (Json.object members).options? := by
  apply options?_of_memberOrNull?_eq
  · exact added.memberOrNull?_eq (by decide) fun value other same => same
  · exact added.memberOrNull?_eq (by decide) fun value other same => same

theorem KeepsMember.options?_eq {name : Text} {value other : Json}
    (kept : KeepsMember name value other) : other.options? = value.options? := by
  cases kept with
  | same => rfl
  | options added => exact added.options?_eq

theorem KeepsMember.eq_of_ne {name : Text} {value other : Json}
    (kept : KeepsMember name value other) (different : name ≠ compilerOptionsName) :
    other = value := by
  cases kept with
  | same => rfl
  | options added => exact absurd rfl different

theorem AddsToDocument.nestedOptions?_eq (added : AddsToDocument members others) :
    (Json.object others).nestedOptions? = (Json.object members).nestedOptions? :=
  added.bind_memberOrNull? (by decide) fun _ _ kept => kept.options?_eq

theorem AddsToDocument.options?_eq (added : AddsToDocument members others) :
    (Json.object others).options? = (Json.object members).options? := by
  apply options?_of_memberOrNull?_eq
  · exact added.memberOrNull?_eq (by decide) fun _ _ kept => kept.eq_of_ne (by decide)
  · exact added.memberOrNull?_eq (by decide) fun _ _ kept => kept.eq_of_ne (by decide)

end Json

namespace Configuration

/-- **Members that are not read do not matter**, whatever they hold and wherever
they stand, at the top of a document or in its compiler options.  The document
describes the same configuration as before, in the same shape, or it had no
accepted shape and has none. -/
theorem ofJson_eq_of_addsToDocument {members others : List (Text × Json)}
    (added : Json.AddsToDocument members others) :
    ofJson (.object others) = ofJson (.object members)
      ∧ ∀ cause, ofJson (.object others) = .error cause → cause = .unknownShape := by
  constructor
  · unfold ofJson ofJson?
    rw [added.nestedOptions?_eq, added.options?_eq]
  · intro cause refused
    exact (ofJson_eq_error_iff.1 refused).1

def bareDocument : List (Text × Json) :=
  [(compilerOptionsName, .object [(pathsName, .object [("@a/*".toList, .null)])]),
    (pathsName, .boolean false)]

/-- The same document with members around these, some of them named alike. -/
def crowdedDocument : List (Text × Json) :=
  [("extends".toList, .string "./base".toList),
    (compilerOptionsName, .object [("strict".toList, .boolean true),
      (pathsName, .object [("@a/*".toList, .null)]),
      ("Paths".toList, .array [.object [(pathsName, .number "1".toList)]])]),
    ("options".toList, .object [(baseUrlName, .string "src".toList)]),
    (pathsName, .boolean false), ("baseurl".toList, .null)]

theorem ofJson_eq_of_addsToDocument_crowdedDocument :
    Json.AddsToDocument bareDocument crowdedDocument
      ∧ ofJson (.object crowdedDocument)
        = .ok (.nested ⟨none, some (.ofList [("@a/*".toList, none)])⟩) := by
  have inOptions : Json.AddsToOptions [(pathsName, .object [("@a/*".toList, .null)])]
      [("strict".toList, .boolean true), (pathsName, .object [("@a/*".toList, .null)]),
        ("Paths".toList, .array [.object [(pathsName, .number "1".toList)]])] :=
    .add (by decide) (.keep rfl (.add (by decide) .nil))
  have added : Json.AddsToDocument bareDocument crowdedDocument :=
    .add (by decide) (.keep (.options inOptions) (.add (by decide)
      (.keep (.same _ _) (.add (by decide) .nil))))
  refine ⟨added, (ofJson_eq_of_addsToDocument added).1.trans ?_⟩
  rfl

end Configuration

end PathAlias
