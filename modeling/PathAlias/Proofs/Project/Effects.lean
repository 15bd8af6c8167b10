import PathAlias.Proofs.Project.Fit

/-!
Contract: what any references make of the lines that they point to.

Owns:
- references that rewrite a line, and the substitutions that references ask for;
- what it takes for an outcome to reflect references: its lines, its report and
  its count;
- the law that one more reference keeps this up, and that nothing else does;
- the main statement: editing lines gives exactly the outcome that reflects all
  references, and those behind the last line play no part in it.

Does not own: references that do not fit their line
(`PathAlias.Proofs.Project.Fit`).

Every substitution starts from the line as it was given.  Of several references
that rewrite one line, each is reported, and the last one alone can be seen in
the line.
-/

set_option autoImplicit false

namespace PathAlias

namespace Project

/-- A reference points to the line at a place, and resolves. -/
def Rewrites (project : Project) (place : Nat) (reference : Reference) : Prop :=
  reference.index = place ∧ project.resolve? reference.path reference.specifier ≠ none

/-- The substitution that a reference asks for.  One behind the last line asks
for none, and neither does one that no alias applies to. -/
def substitution? (project : Project) (lines : List Text) (reference : Reference) :
    Option Substitution :=
  if reference.index < lines.length then
    (project.resolve? reference.path reference.specifier).map fun replacement =>
      ⟨reference.index, reference.specifier, replacement⟩
  else none

def isAimless (project : Project) (lines : List Text) (reference : Reference) : Bool :=
  reference.index < lines.length
    && (project.resolve? reference.path reference.specifier).isNone

end Project

/-- An outcome of lines reflects some references: a line is kept unless one of
them rewrites it, and then it is the given line with the span of the last such
reference replaced: what the line has before the span, the replacement, and what
it has behind; every substitution is reported in order, and the references that no
alias applies to are counted. -/
structure EditedLines.Reflects (edited : EditedLines) (project : Project) (lines : List Text)
    (references : List Reference) : Prop where
  sameLength : edited.lines.length = lines.length
  kept : ∀ place line, lines[place]? = some line →
    (∀ reference ∈ references, ¬ project.Rewrites place reference) →
    edited.lines[place]? = some (.kept line)
  changed : ∀ earlier reference later line replacement,
    references = earlier ++ reference :: later → lines[reference.index]? = some line →
    project.resolve? reference.path reference.specifier = some replacement →
    (∀ other ∈ later, ¬ project.Rewrites reference.index other) →
    ∃ text, reference.span.replace? replacement line = some text
      ∧ reference.span.Splices replacement line text
      ∧ edited.lines[reference.index]? = some (.changed text)
  reported : edited.report.substitutions = references.filterMap (project.substitution? lines)
  counted : edited.report.unresolved = references.countP (project.isAimless lines)

namespace Project

variable {project : Project} {lines : List Text}

/-! ## One more reference -/

theorem substitution?_of_resolve? {reference : Reference} {line replacement : Text}
    (isLine : lines[reference.index]? = some line)
    (resolved : project.resolve? reference.path reference.specifier = some replacement) :
    project.substitution? lines reference
      = some ⟨reference.index, reference.specifier, replacement⟩ := by
  obtain ⟨inRange, -⟩ := List.getElem?_eq_some_iff.1 isLine
  rw [substitution?, if_pos inRange, resolved]
  rfl

theorem isAimless_eq_true_iff {reference : Reference} :
    project.isAimless lines reference = true
      ↔ reference.index < lines.length
        ∧ project.resolve? reference.path reference.specifier = none := by
  simp [isAimless]

/-- The last of some references is another one than the given one, or the same. -/
theorem concat_eq_append_cons {references earlier later : List Reference}
    {last reference : Reference} (divided : references ++ [last] = earlier ++ reference :: later) :
    (later = [] ∧ reference = last)
      ∨ ∃ others, later = others ++ [last] ∧ references = earlier ++ reference :: others := by
  rcases List.eq_nil_or_concat' later with rfl | ⟨others, final, rfl⟩
  · left
    exact ⟨rfl, (List.append_singleton_inj.1 divided).2.symm⟩
  · right
    rw [← List.cons_append, ← List.append_assoc, List.append_singleton_inj] at divided
    obtain ⟨isReferences, rfl⟩ := divided
    exact ⟨others, rfl, isReferences⟩

/-- Without references every line is kept. -/
theorem reflects_untouched (project : Project) (lines : List Text) :
    (EditedLines.untouched lines).Reflects project lines [] where
  sameLength := List.length_map _
  kept := by
    intro place line isLine _
    simp [EditedLines.untouched, isLine]
  changed := by
    intro earlier reference later line replacement divided
    simp at divided
  reported := rfl
  counted := rfl

section

variable {edited : EditedLines} {references : List Reference} {last : Reference}
  (reflects : edited.Reflects project lines references)

include reflects

/-- A reference that rewrites none of the lines leaves them as they are. -/
theorem reflects_concat_of_idle
    (idle : ∀ line, lines[last.index]? = some line → ¬ project.Rewrites last.index last)
    {report : Report}
    (reported : report.substitutions
      = (references ++ [last]).filterMap (project.substitution? lines))
    (counted : report.unresolved = (references ++ [last]).countP (project.isAimless lines)) :
    EditedLines.Reflects ⟨edited.lines, report⟩ project lines (references ++ [last]) where
  sameLength := reflects.sameLength
  kept := by
    intro place line isLine unwritten
    exact reflects.kept place line isLine
      fun reference member => unwritten reference (List.mem_append_left _ member)
  changed := by
    intro earlier reference later line replacement divided isLine resolved final
    rcases concat_eq_append_cons divided with ⟨rfl, rfl⟩ | ⟨others, rfl, isReferences⟩
    · exact absurd ⟨rfl, by simp [resolved]⟩ (idle line isLine)
    · exact reflects.changed earlier reference others line replacement isReferences isLine resolved
        fun other member => final other (List.mem_append_left _ member)
  reported := reported
  counted := counted

/-- A reference that rewrites a line makes the line what it is from then on. -/
theorem reflects_concat_of_replace? {line replacement text : Text}
    (isLine : lines[last.index]? = some line)
    (resolved : project.resolve? last.path last.specifier = some replacement)
    (spliced : last.span.replace? replacement line = some text) :
    (edited.replace ⟨last.index, last.specifier, replacement⟩ text).Reflects project lines
      (references ++ [last]) where
  sameLength := by
    rw [EditedLines.replace, List.length_set, reflects.sameLength]
  kept := by
    intro place other isOther unwritten
    have different : last.index ≠ place := by
      intro same
      exact unwritten last (by simp) ⟨same, by simp [resolved]⟩
    rw [EditedLines.replace, List.getElem?_set_ne different]
    exact reflects.kept place other isOther
      fun reference member => unwritten reference (List.mem_append_left _ member)
  changed := by
    intro earlier reference later other otherReplacement divided isOther otherResolved final
    rcases concat_eq_append_cons divided with ⟨rfl, rfl⟩ | ⟨others, rfl, isReferences⟩
    · cases isLine.symm.trans isOther
      cases resolved.symm.trans otherResolved
      have inRange : reference.index < edited.lines.length := by
        rw [reflects.sameLength]
        exact (List.getElem?_eq_some_iff.1 isLine).1
      exact ⟨text, spliced, Span.replace?_eq_some_iff.1 spliced, List.getElem?_set_self inRange⟩
    · have different : last.index ≠ reference.index := by
        intro same
        exact final last (by simp) ⟨same, by simp [resolved]⟩
      rw [EditedLines.replace, List.getElem?_set_ne different]
      exact reflects.changed earlier reference others other otherReplacement isReferences isOther
        otherResolved fun later member => final later (List.mem_append_left _ member)
  reported := by
    rw [List.filterMap_append, ← reflects.reported, List.filterMap_cons,
      substitution?_of_resolve? isLine resolved]
    rfl
  counted := by
    have aimed : ¬ project.isAimless lines last = true := by
      rw [isAimless_eq_true_iff, resolved]
      simp
    rw [List.countP_append, ← reflects.counted, List.countP_singleton, if_neg aimed]
    rfl

/-- Whatever one more reference does, the outcome reflects it too. -/
theorem reflects_editReference {next : EditedLines}
    (step : project.editReference lines edited last = .ok next) :
    next.Reflects project lines (references ++ [last]) := by
  have outcome := project.referenceOutcome lines edited last
  rw [step] at outcome
  cases outcome with
  | beyond outside =>
      have outOfRange : ¬ last.index < lines.length := by
        rw [Nat.not_lt]
        exact List.getElem?_eq_none_iff.1 outside
      apply reflects_concat_of_idle reflects
      case idle => simp [outside]
      case reported =>
        rw [List.filterMap_append, ← reflects.reported]
        simp [substitution?, outOfRange]
      case counted =>
        rw [List.countP_append, ← reflects.counted]
        simp [isAimless, outOfRange]
  | unresolved line isLine aimless =>
      obtain ⟨inRange, -⟩ := List.getElem?_eq_some_iff.1 isLine
      apply reflects_concat_of_idle reflects
      case idle =>
        intro _ _ rewrites
        exact rewrites.2 aimless
      case reported =>
        rw [List.filterMap_append, ← reflects.reported]
        simp [substitution?, aimless]
      case counted =>
        rw [List.countP_append, ← reflects.counted]
        simp [isAimless, aimless, inRange]
  | replaced line replacement text isLine resolved spliced =>
      exact reflects_concat_of_replace? reflects isLine resolved spliced

end

/-- What references make of lines reflects all of them. -/
theorem reflects_of_editLines {references : List Reference} {edited : EditedLines}
    (accepted : project.editLines lines references = .ok edited) :
    edited.Reflects project lines references := by
  induction references using List.reverseRecOn generalizing edited with
  | nil =>
      cases accepted
      exact reflects_untouched project lines
  | append_singleton front last inductionHypothesis =>
      rw [editLines_append_singleton, Outcome.bind_eq_ok_iff] at accepted
      obtain ⟨before, run, step⟩ := accepted
      exact reflects_editReference (inductionHypothesis run) step

/-! ## The outcome is told -/

/-- Of the references that rewrite a line, there is a last one. -/
theorem exists_last_rewrite {place : Nat} {references : List Reference}
    (written : ∃ reference ∈ references, project.Rewrites place reference) :
    ∃ earlier reference later replacement, references = earlier ++ reference :: later
      ∧ reference.index = place
      ∧ project.resolve? reference.path reference.specifier = some replacement
      ∧ ∀ other ∈ later, ¬ project.Rewrites place other := by
  have reversed : ∃ reference ∈ references.reverse, project.Rewrites place reference := by
    simpa using written
  obtain ⟨later, reference, earlier, divided, final, isPlace, resolves⟩ := exists_first reversed
  obtain ⟨replacement, resolved⟩ := Option.ne_none_iff_exists'.1 resolves
  refine ⟨earlier.reverse, reference, later.reverse, replacement, ?_, isPlace, resolved, ?_⟩
  · rw [← List.reverse_reverse references, divided]
    simp
  · simpa using final

section

variable {edited : EditedLines} {references : List Reference}
  (reflects : edited.Reflects project lines references) {place : Nat} {line : Text}
  (isLine : lines[place]? = some line)

include reflects isLine

theorem exists_changed_of_rewrites
    (written : ∃ reference ∈ references, project.Rewrites place reference) :
    ∃ text, edited.lines[place]? = some (.changed text)
      ∧ ∀ other : EditedLines, other.Reflects project lines references →
        other.lines[place]? = some (.changed text) := by
  obtain ⟨earlier, reference, later, replacement, divided, rfl, resolved, final⟩ :=
    exists_last_rewrite written
  obtain ⟨text, spliced, -, isChanged⟩ :=
    reflects.changed earlier reference later line replacement divided isLine resolved final
  refine ⟨text, isChanged, fun other otherReflects => ?_⟩
  obtain ⟨otherText, otherSpliced, -, otherChanged⟩ :=
    otherReflects.changed earlier reference later line replacement divided isLine resolved final
  cases spliced.symm.trans otherSpliced
  exact otherChanged

/-- A line is changed exactly when a reference rewrites it. -/
theorem exists_changed_iff :
    (∃ text, edited.lines[place]? = some (.changed text))
      ↔ ∃ reference ∈ references, project.Rewrites place reference := by
  constructor
  · rintro ⟨text, isChanged⟩
    by_contra unwritten
    push Not at unwritten
    rw [reflects.kept place line isLine unwritten] at isChanged
    cases isChanged
  · intro written
    obtain ⟨text, isChanged, -⟩ := exists_changed_of_rewrites reflects isLine written
    exact ⟨text, isChanged⟩

end

/-- No two outcomes reflect the same references. -/
theorem reflects_unique {first second : EditedLines} {references : List Reference}
    (firstReflects : first.Reflects project lines references)
    (secondReflects : second.Reflects project lines references) : first = second := by
  have sameLines : first.lines = second.lines := by
    apply List.ext_getElem?
    intro place
    cases isLine : lines[place]? with
    | none =>
        have outside := List.getElem?_eq_none_iff.1 isLine
        rw [List.getElem?_eq_none (by rwa [firstReflects.sameLength]),
          List.getElem?_eq_none (by rwa [secondReflects.sameLength])]
    | some line =>
        by_cases written : ∃ reference ∈ references, project.Rewrites place reference
        · obtain ⟨text, isChanged, others⟩ :=
            exists_changed_of_rewrites firstReflects isLine written
          rw [isChanged, others second secondReflects]
        · push Not at written
          rw [firstReflects.kept place line isLine written,
            secondReflects.kept place line isLine written]
  have sameReport : first.report = second.report := by
    obtain ⟨lines, substitutions, unresolved⟩ := first
    obtain ⟨otherLines, otherSubstitutions, otherUnresolved⟩ := second
    exact congrArg₂ Report.mk (firstReflects.reported.trans secondReflects.reported.symm)
      (firstReflects.counted.trans secondReflects.counted.symm)
  obtain ⟨lines, report⟩ := first
  cases sameLines
  cases sameReport
  rfl

/-- References behind the last line can be left out. -/
theorem editLines_filter (project : Project) (lines : List Text) (references : List Reference) :
    project.editLines lines (references.filter fun reference => reference.index < lines.length)
      = project.editLines lines references := by
  unfold editLines
  rw [List.foldlM_filter]
  congr 1
  funext edited reference
  split
  · rfl
  · rename_i outOfRange
    have outside : lines[reference.index]? = none := by
      simpa using outOfRange
    simp [editReference, outside]

/-- **Editing lines gives exactly the outcome that reflects all references**, in
whatever order they come and however often they point to one line, as long as
each of them fits.  The lines that are changed are those that some reference
rewrites, and references behind the last line play no part at all. -/
theorem editLines_eq_ok_iff_reflects (project : Project) (lines : List Text)
    (references : List Reference) :
    (∀ edited, project.editLines lines references = .ok edited
        ↔ (∀ reference ∈ references, ¬ project.Misfits lines reference)
          ∧ edited.Reflects project lines references)
      ∧ (∀ edited, project.editLines lines references = .ok edited →
        ∀ place line, lines[place]? = some line →
          ((∃ text, edited.lines[place]? = some (.changed text))
            ↔ ∃ reference ∈ references, project.Rewrites place reference))
      ∧ project.editLines lines references = project.editLines lines
          (references.filter fun reference => reference.index < lines.length) := by
  refine ⟨fun edited => ⟨?_, ?_⟩, ?_, ?_⟩
  · intro accepted
    exact ⟨fitting_of_editLines accepted, reflects_of_editLines accepted⟩
  · rintro ⟨fitting, reflects⟩
    obtain ⟨other, accepted⟩ := exists_editLines_eq_ok fitting
    rw [accepted, reflects_unique reflects (reflects_of_editLines accepted)]
  · intro edited accepted place line isLine
    exact exists_changed_iff (reflects_of_editLines accepted) isLine
  · exact (editLines_filter project lines references).symm

/-- Two references to one line: both are reported, and the last one is to be seen in
the line as it was given. -/
example :
    let file := Path.ofText "s/i.ts".toList
    oneAlias.editLines ["'@a/x' '@a/y'".toList]
        [⟨file, 0, "@a/y".toList, ⟨9, 13⟩⟩, ⟨file, 7, "@a/x".toList, ⟨1, 5⟩⟩,
          ⟨file, 0, "@a/x".toList, ⟨1, 5⟩⟩, ⟨file, 0, "x".toList, ⟨9, 13⟩⟩]
      = .ok ⟨[.changed "'../a/x' '@a/y'".toList],
          ⟨[⟨0, "@a/y".toList, "../a/y".toList⟩, ⟨0, "@a/x".toList, "../a/x".toList⟩], 1⟩⟩ := by
  rfl

end Project

end PathAlias
