import PathAlias.Proofs.Project.Outcome
import PathAlias.Proofs.Project.Precedence

/-!
Contract: when a reference does not fit its line, and that no reference of a file
is of that kind.

Owns:
- the offsets of a text between its characters, and spans that end at such;
- what a single reference does to lines;
- the first reference that breaks editing off;
- the main statement: references break editing off exactly when one of them
  resolves and does not fit its line, and those of a file always fit.

Does not own: what references that fit make of the lines.

A text is cut in four places: a specifier behind the stem of its alias, a line
around the specifier that is read from it, and a line before and behind a span
that is replaced.  Only the last two take offsets from outside.
-/

set_option autoImplicit false

universe u

namespace PathAlias

/-- Of the items of a list with a property, there is a first one. -/
theorem exists_first {α : Type u} {p : α → Prop} {items : List α} (held : ∃ item ∈ items, p item) :
    ∃ earlier item later, items = earlier ++ item :: later
      ∧ (∀ other ∈ earlier, ¬ p other) ∧ p item := by
  classical
  have isFound : items.find? (fun item => p item) ≠ none := by
    simpa using held
  obtain ⟨item, first⟩ := Option.ne_none_iff_exists'.1 isFound
  obtain ⟨holds, earlier, later, divided, passed⟩ := List.find?_eq_some_iff_append.1 first
  exact ⟨earlier, item, later, divided, by simpa using passed, by simpa using holds⟩

/-! ## Spans that fit -/

namespace Text

/-- An offset lies between two characters of a text, or at one of its ends. -/
def IsBoundary (text : Text) (offset : Nat) : Prop :=
  ∃ before after, text = before ++ after ∧ byteLength before = offset

theorem cutAt?_eq_none_iff {offset : Nat} {text : Text} :
    cutAt? offset text = none ↔ ¬ text.IsBoundary offset := by
  rw [Option.eq_none_iff_forall_ne_some]
  constructor
  · intro uncut isBoundary
    obtain ⟨before, after, whole, width⟩ := isBoundary
    exact uncut (before, after) (cutAt?_eq_some_iff.2 ⟨whole, width⟩)
  · intro inside parts cut
    exact inside ⟨parts.1, parts.2, cutAt?_eq_some_iff.1 cut⟩

theorem IsBoundary.le {offset : Nat} {text : Text} (isBoundary : text.IsBoundary offset) :
    offset ≤ byteLength text := by
  obtain ⟨before, after, rfl, rfl⟩ := isBoundary
  rw [byteLength_append]
  exact Nat.le_add_right _ _

end Text

namespace Span

/-- Both ends of a span are boundaries of a text, in whatever order. -/
structure Fits (span : Span) (text : Text) : Prop where
  start : text.IsBoundary span.start
  finish : text.IsBoundary span.finish

theorem replace?_eq_none_iff {span : Span} {replacement text : Text} :
    span.replace? replacement text = none ↔ ¬ span.Fits text := by
  have fits_iff : span.Fits text
      ↔ text.IsBoundary span.start ∧ text.IsBoundary span.finish :=
    ⟨fun fits => ⟨fits.start, fits.finish⟩, fun ends => ⟨ends.1, ends.2⟩⟩
  rw [fits_iff, not_and_or, ← Text.cutAt?_eq_none_iff, ← Text.cutAt?_eq_none_iff]
  unfold replace?
  cases Text.cutAt? span.start text with
  | none => simp
  | some front => cases Text.cutAt? span.finish text <;> simp

theorem Fits.width_le {span : Span} {text : Text} (fits : span.Fits text) :
    span.finish - span.start ≤ Text.byteLength text :=
  Nat.le_trans (Nat.sub_le _ _) fits.finish.le

theorem fits_of_textAt? {span : Span} {text content : Text}
    (held : span.textAt? text = some content) : span.Fits text := by
  unfold textAt? at held
  simp only [Option.bind_eq_bind, Option.bind_eq_some_iff, Option.pure_def, Prod.exists] at held
  obtain ⟨whole, behind, outer, before, middle, inner, -⟩ := held
  obtain ⟨isText, finish⟩ := Text.cutAt?_eq_some_iff.1 outer
  obtain ⟨isWhole, start⟩ := Text.cutAt?_eq_some_iff.1 inner
  refine ⟨⟨before, middle ++ behind, ?_, start⟩, ⟨whole, behind, isText, finish⟩⟩
  rw [isText, isWhole, List.append_assoc]

end Span

/-- Behind the stem of its alias, a specifier is cut between two characters. -/
theorem Aliases.cutAt?_of_find? {aliases : Aliases} {specifier : Text} {used : Alias}
    (found : aliases.find? specifier = some used) :
    Text.cutAt? (Text.byteLength used.stem) specifier
      = some (used.stem, specifier.drop used.stem.length) := by
  obtain ⟨rest, divided⟩ := (covers_of_find? found).2
  rw [Text.cutAt?_eq_some_iff, ← divided, List.drop_left]
  exact ⟨rfl, rfl⟩

namespace Project

/-! ## One reference -/

section

variable {project : Project} {lines : List Text}

/-- A reference points to one of the lines and resolves, and its span does not
fit the line. -/
def Misfits (project : Project) (lines : List Text) (reference : Reference) : Prop :=
  ∃ line replacement, lines[reference.index]? = some line
    ∧ project.resolve? reference.path reference.specifier = some replacement
    ∧ ¬ reference.span.Fits line

/-- All that a reference can do to lines. -/
inductive ReferenceOutcome (project : Project) (lines : List Text) (edited : EditedLines)
    (reference : Reference) : Except EditError EditedLines → Prop where
  | beyond (outside : lines[reference.index]? = none) :
      ReferenceOutcome project lines edited reference (.ok edited)
  | unresolved (line : Text) (isLine : lines[reference.index]? = some line)
      (aimless : project.resolve? reference.path reference.specifier = none) :
      ReferenceOutcome project lines edited reference (.ok edited.leave)
  | unfit (misfits : project.Misfits lines reference) :
      ReferenceOutcome project lines edited reference (.error (.spanOutsideLine reference))
  | replaced (line replacement text : Text) (isLine : lines[reference.index]? = some line)
      (resolved : project.resolve? reference.path reference.specifier = some replacement)
      (spliced : reference.span.replace? replacement line = some text) :
      ReferenceOutcome project lines edited reference
        (.ok (edited.replace ⟨reference.index, reference.specifier, replacement⟩ text))

theorem referenceOutcome (project : Project) (lines : List Text) (edited : EditedLines)
    (reference : Reference) :
    project.ReferenceOutcome lines edited reference
      (project.editReference lines edited reference) := by
  unfold editReference
  split
  · rename_i outside
    exact .beyond outside
  · rename_i line isLine
    split
    · rename_i aimless
      exact .unresolved line isLine aimless
    · rename_i replacement resolved
      split
      · rename_i unspliced
        have unfit := Span.replace?_eq_none_iff.1 unspliced
        exact .unfit ⟨line, replacement, isLine, resolved, unfit⟩
      · rename_i text spliced
        exact .replaced line replacement text isLine resolved spliced

theorem editReference_of_misfits {reference : Reference}
    (misfits : project.Misfits lines reference) (edited : EditedLines) :
    project.editReference lines edited reference = .error (.spanOutsideLine reference) := by
  obtain ⟨line, replacement, isLine, resolved, unfit⟩ := misfits
  simp only [editReference, isLine, resolved, Span.replace?_eq_none_iff.2 unfit]

theorem exists_editReference_eq_ok {reference : Reference}
    (fitting : ¬ project.Misfits lines reference) (edited : EditedLines) :
    ∃ next, project.editReference lines edited reference = .ok next := by
  cases done : project.editReference lines edited reference with
  | ok next => exact ⟨next, rfl⟩
  | error cause =>
      have outcome := project.referenceOutcome lines edited reference
      rw [done] at outcome
      cases outcome with
      | unfit misfits => exact absurd misfits fitting

/-! ## All references -/

theorem editLines_append_singleton (references : List Reference) (last : Reference) :
    project.editLines lines (references ++ [last])
      = (project.editLines lines references >>= fun edited =>
          project.editReference lines edited last) := by
  simp only [editLines, List.foldlM_append, List.foldlM_cons, List.foldlM_nil, bind_pure]

theorem exists_foldlM_eq_ok {references : List Reference}
    (fitting : ∀ reference ∈ references, ¬ project.Misfits lines reference)
    (edited : EditedLines) :
    ∃ final, references.foldlM (project.editReference lines) edited = .ok final := by
  induction references generalizing edited with
  | nil => exact ⟨edited, rfl⟩
  | cons first rest inductionHypothesis =>
      obtain ⟨next, step⟩ := exists_editReference_eq_ok (fitting first List.mem_cons_self) edited
      obtain ⟨final, run⟩ := inductionHypothesis
        (fun reference member => fitting reference (List.mem_cons_of_mem first member)) next
      refine ⟨final, ?_⟩
      rw [List.foldlM_cons, step]
      exact run

theorem exists_editLines_eq_ok {references : List Reference}
    (fitting : ∀ reference ∈ references, ¬ project.Misfits lines reference) :
    ∃ edited, project.editLines lines references = .ok edited :=
  exists_foldlM_eq_ok fitting (.untouched lines)

theorem editLines_of_misfits {earlier : List Reference} {reference : Reference}
    (fitting : ∀ other ∈ earlier, ¬ project.Misfits lines other)
    (misfits : project.Misfits lines reference) (later : List Reference) :
    project.editLines lines (earlier ++ reference :: later)
      = .error (.spanOutsideLine reference) := by
  obtain ⟨edited, run⟩ := exists_editLines_eq_ok fitting
  unfold editLines at run ⊢
  rw [List.foldlM_append, run]
  simp only [Outcome.ok_bind, Outcome.error_bind, List.foldlM_cons,
    editReference_of_misfits misfits]

theorem fitting_of_editLines {references : List Reference} {edited : EditedLines}
    (accepted : project.editLines lines references = .ok edited) :
    ∀ reference ∈ references, ¬ project.Misfits lines reference := by
  intro reference member misfits
  obtain ⟨earlier, first, later, rfl, fitting, firstMisfits⟩ :=
    exists_first ⟨reference, member, misfits⟩
  rw [editLines_of_misfits fitting firstMisfits] at accepted
  cases accepted

/-- Editing breaks off at the first reference that does not fit its line, and
nowhere else. -/
theorem editLines_eq_error_iff {references : List Reference} {cause : EditError} :
    project.editLines lines references = .error cause
      ↔ ∃ earlier reference later, references = earlier ++ reference :: later
        ∧ (∀ other ∈ earlier, ¬ project.Misfits lines other)
        ∧ project.Misfits lines reference ∧ cause = .spanOutsideLine reference := by
  constructor
  · intro broken
    by_cases fitting : ∀ reference ∈ references, ¬ project.Misfits lines reference
    · obtain ⟨edited, run⟩ := exists_editLines_eq_ok fitting
      cases run.symm.trans broken
    · push Not at fitting
      obtain ⟨earlier, reference, later, rfl, passed, misfits⟩ := exists_first fitting
      cases (editLines_of_misfits passed misfits later).symm.trans broken
      exact ⟨earlier, reference, later, rfl, passed, misfits, rfl⟩
  · rintro ⟨earlier, reference, later, rfl, passed, misfits, rfl⟩
    exact editLines_of_misfits passed misfits later

end

/-! ## References of a file -/

theorem not_misfits_of_mem_listAfter {lines : List Text} {owner : Path} {reference : Reference}
    (member : reference ∈ Reference.listAfter owner 0 lines) (project : Project) :
    ¬ project.Misfits lines reference := by
  obtain ⟨passed, line, occurrence, isLine, found, rfl⟩ := Reference.mem_listAfter.1 member
  rintro ⟨other, replacement, isOther, -, unfit⟩
  rw [Nat.zero_add] at isOther
  cases isLine.symm.trans isOther
  exact unfit (Span.fits_of_textAt? (Reference.textAt?_span_of_find? found))

theorem exists_editLines_ofLines {lines : List Text} {owner : Path} {references : List Reference}
    (listed : Reference.ofLines owner lines = .ok references) (project : Project) :
    ∃ edited, project.editLines lines references = .ok edited := by
  apply exists_editLines_eq_ok
  intro reference member
  unfold Reference.ofLines at listed
  cases ambiguous : lines.findIdx? Reference.isAmbiguous with
  | none =>
      rw [Reference.ofLinesAfter_of_single ambiguous owner 0] at listed
      cases listed
      exact not_misfits_of_mem_listAfter member project
  | some passed =>
      rw [Reference.ofLinesAfter_of_findIdx? ambiguous owner 0] at listed
      cases listed

theorem editText_ne_spanOutsideLine (project : Project) (path : Path) (text : Text)
    (reference : Reference) :
    project.editText path text ≠ .error (.spanOutsideLine reference) := by
  intro broken
  obtain ⟨passed, -, impossible⟩ := (editText_eq_error_iff project path).1 broken
  cases impossible

theorem editFile_ne_spanOutsideLine (project : Project) (file : File) (reference : Reference) :
    project.editFile file ≠ .error (.spanOutsideLine reference) := by
  obtain ⟨outcome, yields⟩ := project.exists_yields file
  rw [yields.editFile_eq]
  rintro rfl
  cases yields with
  | refused path text cause nonempty named failed =>
      exact project.editText_ne_spanOutsideLine path text reference failed

/-- **References break editing off exactly when one of them does not fit.**  It
has to point to a line, and to resolve; then an end of its span lies inside a
character of the line or beyond its end.  No other cut of a text fails on the
way, so that the references that lines list for themselves never break editing
off, and neither does any text or file. -/
theorem editLines_breaks_iff_misfits (project : Project) (lines : List Text)
    (references : List Reference) :
    ((∃ cause, project.editLines lines references = .error cause)
        ↔ ∃ reference ∈ references, project.Misfits lines reference)
      ∧ (∀ cause, project.editLines lines references = .error cause →
        ∃ reference ∈ references, cause = .spanOutsideLine reference)
      ∧ (∀ specifier used, project.mapping.aliases.find? specifier = some used →
        Text.cutAt? (Text.byteLength used.stem) specifier
          = some (used.stem, specifier.drop used.stem.length))
      ∧ (∀ line occurrence, Reference.find? line = some occurrence →
        occurrence.span.textAt? line = some occurrence.specifier)
      ∧ (∀ (span : Span) line, span.Fits line → span.finish - span.start ≤ Text.byteLength line)
      ∧ (∀ owner listed, Reference.ofLines owner lines = .ok listed →
        ∃ edited, project.editLines lines listed = .ok edited)
      ∧ (∀ path text reference,
        project.editText path text ≠ .error (.spanOutsideLine reference))
      ∧ ∀ file reference, project.editFile file ≠ .error (.spanOutsideLine reference) := by
  refine ⟨⟨?_, ?_⟩, ?_, ?_, ?_, ?_, ?_, ?_, ?_⟩
  · rintro ⟨cause, broken⟩
    obtain ⟨earlier, reference, later, rfl, -, misfits, -⟩ := editLines_eq_error_iff.1 broken
    exact ⟨reference, by simp, misfits⟩
  · intro broken
    obtain ⟨earlier, reference, later, rfl, passed, misfits⟩ := exists_first broken
    exact ⟨_, editLines_of_misfits passed misfits later⟩
  · intro cause broken
    obtain ⟨earlier, reference, later, rfl, -, -, isCause⟩ := editLines_eq_error_iff.1 broken
    exact ⟨reference, by simp, isCause⟩
  · intro specifier used found
    exact Aliases.cutAt?_of_find? found
  · intro line occurrence found
    exact Reference.textAt?_span_of_find? found
  · intro span line fits
    exact fits.width_le
  · intro owner listed isListed
    exact exists_editLines_ofLines isListed project
  · exact project.editText_ne_spanOutsideLine
  · exact project.editFile_ne_spanOutsideLine

/-- Ends out of order fit, and the characters between them come twice. -/
example : (Span.mk 3 1).replace? "-".toList "abcd".toList = some "abc-bcd".toList := by decide

end Project

end PathAlias
