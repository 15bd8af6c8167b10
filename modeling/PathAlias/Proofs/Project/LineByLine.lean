import Mathlib.Data.List.Basic
import PathAlias.Project.File
import PathAlias.Proofs.Outcomes
import PathAlias.Proofs.Reference.Listing
import PathAlias.Proofs.Text.Pieces

/-!
Contract: a text is edited line by line, and no line sees another.

Owns:
- one line edited by itself, and the report on the lines of a file;
- the law that the references of a file edit each line by itself;
- the main statement: editing respects the newline between two texts.

Does not own: the references that a file lists
(`PathAlias.Proofs.Reference.Listing`), or any others.
-/

set_option autoImplicit false

namespace PathAlias

/-! ## One line by itself -/

namespace Report

def append (first second : Report) : Report :=
  ⟨first.substitutions ++ second.substitutions, first.unresolved + second.unresolved⟩

@[simp]
theorem append_empty (report : Report) : report.append .empty = report := by
  simp [append, empty]

@[simp]
theorem empty_append (report : Report) : empty.append report = report := by
  simp [append, empty]

theorem append_assoc (first second third : Report) :
    (first.append second).append third = first.append (second.append third) := by
  simp [append, Nat.add_assoc]

end Report

namespace Project

def editLine (project : Project) (owner : Path) (line : Text) : EditedLine :=
  match Reference.find? line with
  | none => .kept line
  | some occurrence =>
      match project.resolve? owner occurrence.specifier with
      | none => .kept line
      | some replacement => .changed (occurrence.before ++ replacement ++ occurrence.after)

def reportLine (project : Project) (owner : Path) (index : Nat) (line : Text) : Report :=
  match Reference.find? line with
  | none => .empty
  | some occurrence =>
      match project.resolve? owner occurrence.specifier with
      | none => ⟨[], 1⟩
      | some replacement => ⟨[⟨index, occurrence.specifier, replacement⟩], 0⟩

/-- The report on lines after a number of others. -/
def reportAfter (project : Project) (owner : Path) : Nat → List Text → Report
  | _, [] => .empty
  | index, line :: rest =>
      (project.reportLine owner index line).append (project.reportAfter owner (index + 1) rest)

/-- A line has no reference, or one that does not resolve, or one that does. -/
inductive LineOutcome (project : Project) (owner : Path) (index : Nat) (line : Text) : Prop where
  | bare
      (absent : Reference.find? line = none)
      (edited : project.editLine owner line = .kept line)
      (reported : project.reportLine owner index line = .empty)
  | unresolved (occurrence : Reference.Occurrence)
      (found : Reference.find? line = some occurrence)
      (aimless : project.resolve? owner occurrence.specifier = none)
      (edited : project.editLine owner line = .kept line)
      (reported : project.reportLine owner index line = ⟨[], 1⟩)
  | replaced (occurrence : Reference.Occurrence) (replacement : Text)
      (found : Reference.find? line = some occurrence)
      (resolved : project.resolve? owner occurrence.specifier = some replacement)
      (edited : project.editLine owner line
        = .changed (occurrence.before ++ replacement ++ occurrence.after))
      (reported : project.reportLine owner index line
        = ⟨[⟨index, occurrence.specifier, replacement⟩], 0⟩)

theorem lineOutcome (project : Project) (owner : Path) (index : Nat) (line : Text) :
    project.LineOutcome owner index line := by
  cases found : Reference.find? line with
  | none =>
      apply LineOutcome.bare found
      · simp only [editLine, found]
      · simp only [reportLine, found]
  | some occurrence =>
      cases resolved : project.resolve? owner occurrence.specifier with
      | none =>
          apply LineOutcome.unresolved occurrence found resolved
          · simp only [editLine, found, resolved]
          · simp only [reportLine, found, resolved]
      | some replacement =>
          apply LineOutcome.replaced occurrence replacement found resolved
          · simp only [editLine, found, resolved]
          · simp only [reportLine, found, resolved]

/-! ## The lines of a file -/

/-- The references of the lines that remain edit each of them by itself, after
the lines in front are done. -/
theorem foldlM_editReference (project : Project) (owner : Path) (done rest : List Text)
    {front : List EditedLine} (width : front.length = done.length) (report : Report) :
    (Reference.listAfter owner done.length rest).foldlM (project.editReference (done ++ rest))
        ⟨front ++ rest.map .kept, report⟩
      = .ok ⟨front ++ rest.map (project.editLine owner),
          report.append (project.reportAfter owner done.length rest)⟩ := by
  induction rest generalizing done front report with
  | nil =>
      simp only [Reference.listAfter, reportAfter, List.map_nil, Report.append_empty]
      rfl
  | cons line rest inductionHypothesis =>
      have nextWidth : (front ++ [project.editLine owner line]).length
          = (done ++ [line]).length := by
        rw [List.length_append, List.length_append, width]
        rfl
      have next := inductionHypothesis (done ++ [line]) nextWidth
        (report.append (project.reportLine owner done.length line))
      rw [List.length_append, List.length_singleton, List.append_assoc, List.append_assoc,
        List.append_assoc, List.singleton_append, List.singleton_append, List.singleton_append,
        Report.append_assoc] at next
      rw [List.map_cons, List.map_cons, reportAfter, ← next, Reference.listAfter_cons]
      -- the first reference, if the line has one, does what the line by itself does
      cases project.lineOutcome owner done.length line with
      | bare absent edited reported =>
          rw [absent, edited, reported, Report.append_empty]
          rfl
      | unresolved occurrence found aimless edited reported =>
          have step : project.editReference (done ++ line :: rest)
              ⟨front ++ .kept line :: rest.map .kept, report⟩
              ⟨owner, done.length, occurrence.specifier, occurrence.span⟩
              = .ok ⟨front ++ .kept line :: rest.map .kept, report.append ⟨[], 1⟩⟩ := by
            simp [editReference, aimless, EditedLines.leave, Report.append]
          rw [found, edited, reported]
          simp only [Option.map_some, Option.toList_some, List.singleton_append,
            List.foldlM_cons, step]
          rfl
      | replaced occurrence replacement found resolved edited reported =>
          have step : project.editReference (done ++ line :: rest)
              ⟨front ++ .kept line :: rest.map .kept, report⟩
              ⟨owner, done.length, occurrence.specifier, occurrence.span⟩
              = .ok ⟨front ++ .changed (occurrence.before ++ replacement ++ occurrence.after)
                    :: rest.map .kept,
                  report.append ⟨[⟨done.length, occurrence.specifier, replacement⟩], 0⟩⟩ := by
            have spliced := Reference.replace?_span_of_find? found replacement
            simp [editReference, resolved, spliced, EditedLines.replace, Report.append,
              ← width]
          rw [found, edited, reported]
          simp only [Option.map_some, Option.toList_some, List.singleton_append,
            List.foldlM_cons, step]
          rfl

/-- The references that a file lists edit each of its lines by itself. -/
theorem editLines_listAfter (project : Project) (owner : Path) (lines : List Text) :
    project.editLines lines (Reference.listAfter owner 0 lines)
      = .ok ⟨lines.map (project.editLine owner), project.reportAfter owner 0 lines⟩ := by
  have width : ([] : List EditedLine).length = ([] : List Text).length := rfl
  have folded := project.foldlM_editReference owner [] lines width .empty
  rw [Report.empty_append] at folded
  exact folded

/-! ## Lines that stay as they are -/

/-- Lines without references have nothing to report. -/
theorem reportAfter_of_listAfter_eq_nil (project : Project) {owner : Path} {index : Nat}
    {lines : List Text} (bare : Reference.listAfter owner index lines = []) :
    project.reportAfter owner index lines = .empty := by
  induction lines generalizing index with
  | nil => rfl
  | cons line rest inductionHypothesis =>
      rw [Reference.listAfter_cons, List.append_eq_nil_iff] at bare
      unfold reportAfter
      rw [inductionHypothesis bare.2, Report.append_empty]
      cases found : Reference.find? line with
      | none => simp only [reportLine, found]
      | some occurrence =>
          rw [found] at bare
          cases bare.1

/-- Lines of which nothing is replaced stay as they are. -/
theorem map_editLine_of_isUnchanged {project : Project} {owner : Path} {index : Nat}
    {lines : List Text} (unchanged : (project.reportAfter owner index lines).isUnchanged = true) :
    (lines.map fun line => (project.editLine owner line).text) = lines := by
  induction lines generalizing index with
  | nil => rfl
  | cons line rest inductionHypothesis =>
      have noneReplaced : (project.reportLine owner index line).substitutions = []
          ∧ (project.reportAfter owner (index + 1) rest).substitutions = [] := by
        simpa [reportAfter, Report.append, Report.isUnchanged] using unchanged
      have restUnchanged : (project.reportAfter owner (index + 1) rest).isUnchanged = true := by
        simp [Report.isUnchanged, noneReplaced.2]
      rw [List.map_cons, inductionHypothesis restUnchanged]
      cases project.lineOutcome owner index line with
      | bare absent edited reported => rw [edited, EditedLine.text]
      | unresolved occurrence found aimless edited reported => rw [edited, EditedLine.text]
      | replaced occurrence replacement found resolved edited reported =>
          rw [reported] at noneReplaced
          cases noneReplaced.1

/-! ## Whole texts -/

section

variable (project : Project) (path : Path)

/-- A text is taken as new exactly when something in it is replaced. -/
theorem reviseText_of_single {text : Text}
    (single : (Separated.split '\n' text).findIdx? Reference.isAmbiguous = none) :
    project.reviseText path text
      = .ok (if (project.reportAfter path 0 (Separated.split '\n' text)).isUnchanged then none
            else some (Separated.join '\n'
              ((Separated.split '\n' text).map fun line => (project.editLine path line).text)),
          project.reportAfter path 0 (Separated.split '\n' text)) := by
  have listed := Reference.ofLinesAfter_of_single single path 0
  have references : referencesOf path (Separated.split '\n' text)
      = .ok (Reference.listAfter path 0 (Separated.split '\n' text)) := by
    rw [referencesOf, Reference.ofLines, listed]
  simp only [reviseText, references, editLines_listAfter, Outcome.ok_bind, Outcome.pure_eq_ok,
    List.map_map]
  split
  · rename_i isEmpty
    rw [reportAfter_of_listAfter_eq_nil project (List.isEmpty_iff.1 isEmpty)]
    rfl
  · split
    · rfl
    · rfl

theorem editText_of_single {text : Text}
    (single : (Separated.split '\n' text).findIdx? Reference.isAmbiguous = none) :
    project.editText path text
      = .ok ⟨Separated.join '\n'
            ((Separated.split '\n' text).map fun line => (project.editLine path line).text),
          project.reportAfter path 0 (Separated.split '\n' text)⟩ := by
  simp only [editText, reviseText_of_single project path single, Outcome.ok_bind,
    Outcome.pure_eq_ok]
  split
  · rename_i unchanged
    rw [map_editLine_of_isUnchanged unchanged, Separated.join_split]
    rfl
  · rfl

theorem editText_of_findIdx? {text : Text} {passed : Nat}
    (found : (Separated.split '\n' text).findIdx? Reference.isAmbiguous = some passed) :
    project.editText path text = .error (.ambiguousLine ⟨path, passed + 1⟩) := by
  have failed := Reference.ofLinesAfter_of_findIdx? found path 0
  rw [Nat.zero_add] at failed
  have references : referencesOf path (Separated.split '\n' text)
      = .error (.ambiguousLine ⟨path, passed + 1⟩) := by
    rw [referencesOf, Reference.ofLines, failed]
  simp only [editText, reviseText, references, Outcome.error_bind]

/-- A text is edited exactly when no line of it is ambiguous, and then line by
line. -/
theorem editText_eq_ok_iff {text : Text} {edited : EditedText} :
    project.editText path text = .ok edited
      ↔ (Separated.split '\n' text).findIdx? Reference.isAmbiguous = none
        ∧ edited = ⟨Separated.join '\n'
            ((Separated.split '\n' text).map fun line => (project.editLine path line).text),
          project.reportAfter path 0 (Separated.split '\n' text)⟩ := by
  cases found : (Separated.split '\n' text).findIdx? Reference.isAmbiguous with
  | none =>
      rw [editText_of_single project path found]
      simp [eq_comm]
  | some passed =>
      rw [editText_of_findIdx? project path found]
      simp

theorem editText_eq_error_iff {text : Text} {cause : EditError} :
    project.editText path text = .error cause
      ↔ ∃ passed, (Separated.split '\n' text).findIdx? Reference.isAmbiguous = some passed
        ∧ cause = .ambiguousLine ⟨path, passed + 1⟩ := by
  cases found : (Separated.split '\n' text).findIdx? Reference.isAmbiguous with
  | none =>
      rw [editText_of_single project path found]
      simp
  | some passed =>
      rw [editText_of_findIdx? project path found]
      simp [eq_comm]

/-- **Editing respects the newline between two texts.**  Two texts that are
edited are edited in the same way when a newline joins them.  A failure of the
first one is that of both together.  An ambiguous line of the second one fails
both together, its number counted on from the lines of the first. -/
theorem editText_append_newline (first second : Text) :
    (∀ firstEdited secondEdited, project.editText path first = .ok firstEdited →
        project.editText path second = .ok secondEdited →
        ∃ edited, project.editText path (first ++ '\n' :: second) = .ok edited
          ∧ edited.text = firstEdited.text ++ '\n' :: secondEdited.text)
      ∧ (∀ cause, project.editText path first = .error cause →
        project.editText path (first ++ '\n' :: second) = .error cause)
      ∧ (∀ firstEdited line, project.editText path first = .ok firstEdited →
        project.editText path second = .error (.ambiguousLine line) →
        project.editText path (first ++ '\n' :: second)
          = .error (.ambiguousLine
              ⟨line.path, line.number + (Separated.split '\n' first).length⟩)) := by
  have divided : Separated.split '\n' (first ++ '\n' :: second)
      = Separated.split '\n' first ++ Separated.split '\n' second :=
    Separated.split_append_cons first second
  refine ⟨?_, ?_, ?_⟩
  · intro firstEdited secondEdited firstOk secondOk
    obtain ⟨firstSingle, rfl⟩ := (editText_eq_ok_iff project path).1 firstOk
    obtain ⟨secondSingle, rfl⟩ := (editText_eq_ok_iff project path).1 secondOk
    refine ⟨_, editText_of_single project path ?_, ?_⟩
    · rw [divided, List.findIdx?_append, firstSingle, secondSingle]
      rfl
    · rw [divided, List.map_append]
      apply Separated.join_append
      · rw [Ne, List.map_eq_nil_iff]
        exact Separated.split_ne_nil '\n' first
      · rw [Ne, List.map_eq_nil_iff]
        exact Separated.split_ne_nil '\n' second
  · intro cause failed
    obtain ⟨passed, found, rfl⟩ := (editText_eq_error_iff project path).1 failed
    apply editText_of_findIdx?
    rw [divided, List.findIdx?_append, found]
    rfl
  · intro firstEdited line firstOk failed
    obtain ⟨firstSingle, -⟩ := (editText_eq_ok_iff project path).1 firstOk
    obtain ⟨passed, found, same⟩ := (editText_eq_error_iff project path).1 failed
    cases same
    have foundLater : (Separated.split '\n' (first ++ '\n' :: second)).findIdx?
        Reference.isAmbiguous = some (passed + (Separated.split '\n' first).length) := by
      rw [divided, List.findIdx?_append, firstSingle, found]
      rfl
    rw [editText_of_findIdx? project path foundLater, Nat.add_right_comm]

end

/-- A project with one alias, whose targets lie beside the sources. -/
def oneAlias : Project where
  mapping :=
    ⟨"./".toList, ⟨[Alias.ofTargets "@a/*".toList (some ["a/*".toList])], by decide +kernel⟩⟩
  workingDirectory := Path.ofText "/r".toList

theorem editText_append_newline_oneAlias :
    (∃ edited, oneAlias.editText (Path.ofText "s/i.ts".toList)
          "é from '@a/x'\n\nimport('@a/y')\r".toList = .ok edited
        ∧ edited.text = "é from '../a/x'\n\nimport('../a/y')\r".toList)
      ∧ oneAlias.editText (Path.ofText "s/i.ts".toList)
          "\nrequire('a') from 'b'\nimport('@a/y')\r".toList
        = .error (.ambiguousLine ⟨Path.ofText "s/i.ts".toList, 2⟩)
      ∧ oneAlias.editText (Path.ofText "s/i.ts".toList)
          "é from '@a/x'\n\nrequire('a') from 'b'".toList
        = .error (.ambiguousLine ⟨Path.ofText "s/i.ts".toList, 3⟩) := by
  have first : oneAlias.editText (Path.ofText "s/i.ts".toList) "é from '@a/x'\n".toList
      = .ok ⟨"é from '../a/x'\n".toList, ⟨[⟨0, "@a/x".toList, "../a/x".toList⟩], 0⟩⟩ := by
    rfl
  have second : oneAlias.editText (Path.ofText "s/i.ts".toList) "import('@a/y')\r".toList
      = .ok ⟨"import('../a/y')\r".toList, ⟨[⟨0, "@a/y".toList, "../a/y".toList⟩], 0⟩⟩ := by
    rfl
  have firstFails : oneAlias.editText (Path.ofText "s/i.ts".toList)
      "\nrequire('a') from 'b'".toList
      = .error (.ambiguousLine ⟨Path.ofText "s/i.ts".toList, 2⟩) := by
    rfl
  have secondFails : oneAlias.editText (Path.ofText "s/i.ts".toList)
      "require('a') from 'b'".toList
      = .error (.ambiguousLine ⟨Path.ofText "s/i.ts".toList, 1⟩) := by
    rfl
  have both : "é from '@a/x'\n\nimport('@a/y')\r".toList
      = "é from '@a/x'\n".toList ++ '\n' :: "import('@a/y')\r".toList := by decide +kernel
  have bothEdited : "é from '../a/x'\n\nimport('../a/y')\r".toList
      = "é from '../a/x'\n".toList ++ '\n' :: "import('../a/y')\r".toList := by decide +kernel
  have failedFirst : "\nrequire('a') from 'b'\nimport('@a/y')\r".toList
      = "\nrequire('a') from 'b'".toList ++ '\n' :: "import('@a/y')\r".toList := by decide +kernel
  have failedSecond : "é from '@a/x'\n\nrequire('a') from 'b'".toList
      = "é from '@a/x'\n".toList ++ '\n' :: "require('a') from 'b'".toList := by decide +kernel
  rw [both, bothEdited, failedFirst, failedSecond]
  refine ⟨(editText_append_newline oneAlias _ _ _).1 _ _ first second,
    (editText_append_newline oneAlias _ _ _).2.1 _ firstFails, ?_⟩
  exact (editText_append_newline oneAlias _ _ _).2.2 _ _ first secondFails

end Project

end PathAlias
