import PathAlias.Proofs.Project.Destination
import PathAlias.Proofs.Project.Report
import PathAlias.Proofs.Reference.Replacement

/-!
Contract: what editing has made is left alone by editing.

Owns:
- a line that a resolved specifier was written into, read again;
- settled lines: those that editing keeps and does not list;
- the step: a line that is edited is settled;
- the run: a text of settled lines is edited to itself;
- the main statement: an edited file is edited to itself.

Does not own: replacements that end or open a quotation.  A line with one of
them can have other references than the line it came from.

A line that was replaced still has its one reference, and that starts with a
dot.  No alias that spares routes applies to it.
-/

set_option autoImplicit false

namespace PathAlias

/-- Aliases under which no route from a file falls. -/
def Aliases.SpareRoutes (aliases : Aliases) : Prop :=
  ∀ entry ∈ aliases.toList, entry.stem ≠ [] ∧ entry.stem.head? ≠ some '.'

namespace Project

section

variable {project : Project} {path : Path}

/-! ## Specifiers that are routes -/

theorem head?_of_resolve? {specifier replacement : Text}
    (resolved : project.resolve? path specifier = some replacement) :
    replacement.head? = some '.' := by
  obtain ⟨substituted, -, rfl⟩ := Option.map_eq_some_iff.1 resolved
  exact head?_markRoute _

theorem resolve?_of_head? (spare : project.mapping.aliases.SpareRoutes) {specifier : Text}
    (marked : specifier.head? = some '.') : project.resolve? path specifier = none := by
  unfold resolve?
  rw [Option.map_eq_none_iff, Option.eq_none_iff_forall_ne_some]
  intro substituted isSubstituted
  obtain ⟨used, target, rest, applies, -⟩ := PathMapping.substitute?_eq_some_iff.1 isSubstituted
  obtain ⟨earlier, later, listed, -⟩ := applies.first
  obtain ⟨nonempty, unmarked⟩ := spare used (by rw [listed]; simp)
  rw [applies.divided, List.head?_append_of_ne_nil _ nonempty] at marked
  exact unmarked marked

/-! ## Lines that were written -/

/-- **A search finds what was written.**  In a line with one reference, an inert
resolved specifier written at the span of that reference is the one reference
again, and the search finds it where it was written. -/
theorem span_find?_of_replace?_resolved {importer : Path} {specifier line replacement : Text}
    {span : Span} (single : Reference.count line = 1)
    (found : (Reference.find? line).map Reference.Occurrence.span = some span)
    (resolved : project.resolve? importer specifier = some replacement)
    (inert : Reference.Inert replacement) :
    ∃ written, span.replace? replacement line = some written
      ∧ Reference.count written = 1
      ∧ (Reference.find? written).map Reference.Occurrence.span
        = some ⟨span.start, span.start + Text.byteLength replacement⟩
      ∧ Span.textAt? ⟨span.start, span.start + Text.byteLength replacement⟩ written
        = some replacement := by
  obtain ⟨occurrence, isFound, rfl⟩ := Option.map_eq_some_iff.1 found
  have replaced := Reference.find?_replaced isFound (Nat.le_of_eq single)
    (head?_of_resolve? resolved) inert
  refine ⟨_, Reference.replace?_span_of_find? isFound replacement, replaced.2.trans single, ?_, ?_⟩
  · rw [replaced.1]
    rfl
  · exact Reference.textAt?_span_of_find? replaced.1

-- The specifier that is replaced holds a quote of the other kind.
theorem span_find?_of_replace?_resolved_oneAlias :
    Reference.count "import('é\"x') // \"".toList = 1
      ∧ oneAlias.resolve? (Path.ofText "s/i.ts".toList) "@a/x".toList = some "../a/x".toList
      ∧ Span.replace? ⟨8, 12⟩ "../a/x".toList "import('é\"x') // \"".toList
        = some "import('../a/x') // \"".toList
      ∧ Reference.count "import('../a/x') // \"".toList = 1
      ∧ (Reference.find? "import('../a/x') // \"".toList).map Reference.Occurrence.span
        = some ⟨8, 14⟩ := by
  have single : Reference.count "import('é\"x') // \"".toList = 1 := by decide +kernel
  have found : (Reference.find? "import('é\"x') // \"".toList).map Reference.Occurrence.span
      = some ⟨8, 12⟩ := by decide +kernel
  have resolved : oneAlias.resolve? (Path.ofText "s/i.ts".toList) "@a/x".toList
      = some "../a/x".toList := by decide +kernel
  have inert : Reference.Inert "../a/x".toList :=
    ⟨Reference.quoteFree_of_any (by decide +kernel), by decide +kernel, by decide +kernel⟩
  have isWritten : Span.replace? ⟨8, 12⟩ "../a/x".toList "import('é\"x') // \"".toList
      = some "import('../a/x') // \"".toList := by decide +kernel
  obtain ⟨written, replaced, count, isSpan, -⟩ :=
    span_find?_of_replace?_resolved single found resolved inert
  cases isWritten.symm.trans replaced
  exact ⟨single, resolved, isWritten, count, isSpan⟩

/-! ## Settled lines -/

/-- A line that is kept, and not for having several references. -/
structure IsSettled (project : Project) (path : Path) (line : Text) : Prop where
  single : Reference.isAmbiguous line = false
  aimless : ∀ occurrence, Reference.find? line = some occurrence →
    project.resolve? path occurrence.specifier = none

theorem IsSettled.editLine {line : Text} (settled : project.IsSettled path line) :
    project.editLine path line = .kept line := by
  cases project.lineOutcome path 0 line with
  | bare absent edited reported => exact edited
  | unresolved occurrence found aimless edited reported => exact edited
  | replaced occurrence replacement found resolved edited reported =>
      rw [settled.aimless occurrence found] at resolved
      cases resolved

/-- What is put into a line, if anything, is inert. -/
def EditsInertly (project : Project) (path : Path) (line : Text) : Prop :=
  ∀ occurrence replacement, Reference.find? line = some occurrence →
    project.resolve? path occurrence.specifier = some replacement →
    Reference.Inert replacement

/-- A line that is edited inertly is settled. -/
theorem isSettled_editLine (spare : project.mapping.aliases.SpareRoutes) {line : Text}
    (single : Reference.isAmbiguous line = false) (inert : project.EditsInertly path line) :
    project.IsSettled path (project.editLine path line).text := by
  cases project.lineOutcome path 0 line with
  | bare absent edited reported =>
      rw [edited]
      refine ⟨single, ?_⟩
      intro occurrence found
      change Reference.find? line = some occurrence at found
      rw [absent] at found
      cases found
  | unresolved occurrence found aimless edited reported =>
      rw [edited]
      refine ⟨single, ?_⟩
      intro occurrence' found'
      cases found.symm.trans found'
      exact aimless
  | replaced occurrence replacement found resolved edited reported =>
      have marked := head?_of_resolve? resolved
      have notSeveral := Reference.isAmbiguous_eq_false_iff.1 single
      obtain ⟨foundAgain, sameCount⟩ := Reference.find?_replaced found notSeveral marked
        (inert occurrence replacement found resolved)
      rw [edited]
      refine ⟨?_, ?_⟩
      · rw [Reference.isAmbiguous_eq_false_iff]
        exact Nat.le_trans (Nat.le_of_eq sameCount) notSeveral
      · intro occurrence' found'
        cases foundAgain.symm.trans found'
        exact resolve?_of_head? spare marked

theorem newline_not_mem_editLine {line : Text} (oneLine : '\n' ∉ line)
    (inert : project.EditsInertly path line) :
    '\n' ∉ (project.editLine path line).text := by
  cases project.lineOutcome path 0 line with
  | bare absent edited reported =>
      rw [edited]
      exact oneLine
  | unresolved occurrence found aimless edited reported =>
      rw [edited]
      exact oneLine
  | replaced occurrence replacement found resolved edited reported =>
      have replacementLine := (inert occurrence replacement found resolved).oneLine
      rw [Reference.whole_of_find? found] at oneLine
      rw [edited]
      simp only [EditedLine.text, List.mem_append, not_or] at oneLine ⊢
      exact ⟨⟨oneLine.1.1, replacementLine⟩, oneLine.2⟩

/-! ## Texts of settled lines -/

theorem substitutions_reportAfter_of_isSettled (index : Nat) {lines : List Text}
    (settled : ∀ line ∈ lines, project.IsSettled path line) :
    (project.reportAfter path index lines).substitutions = [] := by
  rw [List.eq_nil_iff_forall_not_mem]
  intro entry member
  obtain ⟨passed, line, occurrence, isLine, -, found, reads, resolved⟩ :=
    mem_reportAfter.1 member
  have aimless := (settled line (List.mem_of_getElem? isLine)).aimless occurrence found
  rw [reads, aimless] at resolved
  cases resolved

/-- A text of settled lines is edited to itself. -/
theorem editText_join_of_isSettled {lines : List Text} (nonempty : lines ≠ [])
    (oneLine : ∀ line ∈ lines, '\n' ∉ line)
    (settled : ∀ line ∈ lines, project.IsSettled path line) :
    project.editText path (Separated.join '\n' lines)
      = .ok ⟨Separated.join '\n' lines, project.reportAfter path 0 lines⟩ := by
  have isDivided : Separated.split '\n' (Separated.join '\n' lines) = lines :=
    Separated.split_join nonempty oneLine
  have single : (Separated.split '\n' (Separated.join '\n' lines)).findIdx?
      Reference.isAmbiguous = none := by
    rw [isDivided, List.findIdx?_eq_none_iff]
    intro line member
    exact (settled line member).single
  have kept : lines.map (fun line => (project.editLine path line).text) = lines := by
    refine (List.map_congr_left fun line member => ?_).trans (List.map_id lines)
    rw [(settled line member).editLine]
    rfl
  rw [editText_of_single project path single, isDivided, kept]

/-- An edited text is edited to itself, with nothing replaced. -/
theorem editText_text_of_editText (spare : project.mapping.aliases.SpareRoutes) {text : Text}
    {edited : EditedText} (accepted : project.editText path text = .ok edited)
    (inert : ∀ entry ∈ edited.report.substitutions, Reference.Inert entry.replacement) :
    ∃ report, project.editText path edited.text = .ok ⟨edited.text, report⟩
      ∧ report.substitutions = [] := by
  obtain ⟨single, rfl⟩ := (editText_eq_ok_iff project path).1 accepted
  have inertLine : ∀ line ∈ Separated.split '\n' text, project.EditsInertly path line := by
    intro line member occurrence replacement found resolved
    obtain ⟨index, isLine⟩ := List.getElem?_of_mem member
    apply inert ⟨index, occurrence.specifier, replacement⟩
    apply mem_reportAfter.2
    exact ⟨index, line, occurrence, isLine, (Nat.zero_add index).symm, found, rfl, resolved⟩
  have settled : ∀ line ∈ (Separated.split '\n' text).map
      (fun line => (project.editLine path line).text), project.IsSettled path line := by
    intro line member
    obtain ⟨old, present, rfl⟩ := List.mem_map.1 member
    exact isSettled_editLine spare (List.findIdx?_eq_none_iff.1 single old present)
      (inertLine old present)
  refine ⟨_, editText_join_of_isSettled ?_ ?_ settled,
    substitutions_reportAfter_of_isSettled 0 settled⟩
  · rw [Ne, List.map_eq_nil_iff]
    exact Separated.split_ne_nil '\n' text
  · intro line member
    obtain ⟨old, present, rfl⟩ := List.mem_map.1 member
    exact newline_not_mem_editLine (Separated.not_mem_of_mem_split present)
      (inertLine old present)

/-- **An edited file is edited to itself.**  Where no route from a file falls
under an alias, and what was put into the file is inert, editing the contents
again keeps them and replaces nothing. -/
theorem editFile_contents_of_editFile (spare : project.mapping.aliases.SpareRoutes)
    (named : path.bytes ≠ []) {text : Text} {edited : EditedFile}
    (accepted : project.editFile ⟨some path, .buffered (Utf8.encode text)⟩ = .ok edited)
    (inert : ∀ entry ∈ edited.report.substitutions, Reference.Inert entry.replacement) :
    ∃ output, edited.contents = .buffered (Utf8.encode output)
      ∧ (∃ again, project.editText path output = .ok again ∧ again.text = output)
      ∧ ∃ again, project.editFile ⟨some path, edited.contents⟩ = .ok again
        ∧ again.contents = edited.contents ∧ again.report.isUnchanged = true := by
  obtain ⟨editedText, result, rfl⟩ := (editFile_buffered_eq_ok_iff project named).1 accepted
  obtain ⟨report, isAgain, unlisted⟩ := editText_text_of_editText spare result inert
  have isAgainFile := (editFile_buffered_eq_ok_iff project named).2 ⟨_, isAgain, rfl⟩
  refine ⟨editedText.text, rfl, ⟨_, isAgain, rfl⟩, _, isAgainFile, rfl, ?_⟩
  simp [Report.isUnchanged, unlisted]

end

theorem editFile_contents_of_editFile_oneAlias :
    ∃ edited,
      oneAlias.editFile ⟨some (Path.ofText "s/i.ts".toList),
          .buffered (Utf8.encode "é from '@a/x'\n\nimport('b')".toList)⟩ = .ok edited
        ∧ edited.contents
          = .buffered (Utf8.encode "é from '../a/x'\n\nimport('b')".toList)
        ∧ ∃ again, oneAlias.editFile ⟨some (Path.ofText "s/i.ts".toList), edited.contents⟩
            = .ok again
          ∧ again.contents = edited.contents ∧ again.report.isUnchanged = true := by
  have spare : oneAlias.mapping.aliases.SpareRoutes := by
    unfold Aliases.SpareRoutes
    decide +kernel
  have named : (Path.ofText "s/i.ts".toList).bytes ≠ [] := by decide +kernel
  have edited : oneAlias.editText (Path.ofText "s/i.ts".toList)
      "é from '@a/x'\n\nimport('b')".toList
      = .ok ⟨"é from '../a/x'\n\nimport('b')".toList,
          ⟨[⟨0, "@a/x".toList, "../a/x".toList⟩], 1⟩⟩ := by
    rfl
  have accepted := (editFile_buffered_eq_ok_iff oneAlias named).2 ⟨_, edited, rfl⟩
  have inert : Reference.Inert "../a/x".toList :=
    ⟨Reference.quoteFree_of_any (by decide +kernel), by decide +kernel, by decide +kernel⟩
  obtain ⟨output, -, -, again⟩ := editFile_contents_of_editFile spare named accepted
    (fun entry member => by rw [List.mem_singleton.1 member]; exact inert)
  exact ⟨_, accepted, rfl, again⟩

end Project

end PathAlias
