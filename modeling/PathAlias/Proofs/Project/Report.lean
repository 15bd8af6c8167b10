import PathAlias.Proofs.Project.LineByLine
import PathAlias.Proofs.Text.Encoding
import PathAlias.Text.Utf8.RoundTrip

/-!
Contract: the report on a file describes its output exactly.

Owns:
- the entries of a report, its order and its count, over the lines of a file;
- what it takes for a report to describe an output, and that no two outputs fit
  one description: from the lines and the report alone, the output can be told;
- a file with contents, edited or not, as its text edited or not;
- the main statement: the report on an edited file describes its contents.

Does not own: files that are refused.
-/

set_option autoImplicit false

namespace PathAlias

/-- A report describes an outcome of lines: its entries are the lines that
changed, in order, and say how: the specifier that stands between two parts of the
line is the reference, and its replacement stands between them instead; all other
lines are as they were, and have no reference that resolves. -/
structure Report.Describes (report : Report) (project : Project) (path : Path)
    (lines outcome : List Text) : Prop where
  sameLength : outcome.length = lines.length
  increasing : (report.substitutions.map Substitution.line).Pairwise (· < ·)
  listed : ∀ entry ∈ report.substitutions, ∃ line occurrence before after,
    lines[entry.line]? = some line ∧ Reference.find? line = some occurrence
      ∧ line = before ++ entry.specifier ++ after
      ∧ occurrence.span = .following before entry.specifier
      ∧ occurrence.span.textAt? line = some entry.specifier
      ∧ project.resolve? path entry.specifier = some entry.replacement
      ∧ occurrence.span.replace? entry.replacement line
        = some (before ++ entry.replacement ++ after)
      ∧ outcome[entry.line]? = some (before ++ entry.replacement ++ after)
  unlisted : ∀ index line, lines[index]? = some line →
    (∀ entry ∈ report.substitutions, entry.line ≠ index) →
    outcome[index]? = some line
      ∧ ∀ occurrence, Reference.find? line = some occurrence →
        ∃ specifier, occurrence.span.textAt? line = some specifier
          ∧ project.resolve? path specifier = none
  counted : report.substitutions.length + report.unresolved
    = lines.countP fun line => Reference.count line = 1

namespace Project

variable {project : Project} {owner : Path}

/-! ## The entries of a report -/

/-- The entries of a report are the references that resolve, each at its
line. -/
theorem mem_reportAfter {index : Nat} {lines : List Text} {entry : Substitution} :
    entry ∈ (project.reportAfter owner index lines).substitutions
      ↔ ∃ passed line occurrence, lines[passed]? = some line ∧ entry.line = index + passed
        ∧ Reference.find? line = some occurrence ∧ entry.specifier = occurrence.specifier
        ∧ project.resolve? owner entry.specifier = some entry.replacement := by
  induction lines generalizing index with
  | nil => simp [reportAfter, Report.empty]
  | cons line rest inductionHypothesis =>
      unfold reportAfter Report.append
      rw [List.mem_append, inductionHypothesis]
      constructor
      · intro member
        rcases member with here | ⟨passed, other, occurrence, isLine, place, found, reads, resolved⟩
        · cases project.lineOutcome owner index line with
          | bare absent edited reported => simp [reported, Report.empty] at here
          | unresolved occurrence found aimless edited reported => simp [reported] at here
          | replaced occurrence replacement found resolved edited reported =>
              rw [reported, List.mem_singleton] at here
              subst here
              exact ⟨0, line, occurrence, rfl, rfl, found, rfl, resolved⟩
        · exact ⟨passed + 1, other, occurrence, isLine, by rw [place]; omega, found, reads,
            resolved⟩
      · intro present
        obtain ⟨passed, other, occurrence, isLine, place, found, reads, resolved⟩ := present
        cases passed with
        | zero =>
            left
            cases isLine
            rw [reads] at resolved
            cases entry
            simp only at reads place resolved
            subst reads place
            simp [reportLine, found, resolved]
        | succ passed =>
            right
            exact ⟨passed, other, occurrence, isLine, by rw [place]; omega, found, reads,
              resolved⟩

theorem increasing_reportAfter (index : Nat) (lines : List Text) :
    ((project.reportAfter owner index lines).substitutions.map Substitution.line).Pairwise
      (· < ·) := by
  induction lines generalizing index with
  | nil => exact List.Pairwise.nil
  | cons line rest inductionHypothesis =>
      unfold reportAfter Report.append
      rw [List.map_append, List.pairwise_append]
      refine ⟨?_, inductionHypothesis (index + 1), ?_⟩
      · cases project.lineOutcome owner index line with
        | bare absent edited reported => simp [reported, Report.empty]
        | unresolved occurrence found aimless edited reported => simp [reported]
        | replaced occurrence replacement found resolved edited reported => simp [reported]
      · intro earlier isEarlier later isLater
        have atIndex : earlier = index := by
          cases project.lineOutcome owner index line with
          | bare absent edited reported => simp [reported, Report.empty] at isEarlier
          | unresolved occurrence found aimless edited reported => simp [reported] at isEarlier
          | replaced occurrence replacement found resolved edited reported =>
              simpa [reported] using isEarlier
        obtain ⟨entry, member, rfl⟩ := List.mem_map.1 isLater
        obtain ⟨passed, other, occurrence, -, place, -⟩ := mem_reportAfter.1 member
        omega

theorem count_reportAfter (index : Nat) (lines : List Text) :
    (project.reportAfter owner index lines).substitutions.length
        + (project.reportAfter owner index lines).unresolved
      = lines.countP fun line => (Reference.find? line).isSome := by
  induction lines generalizing index with
  | nil => rfl
  | cons line rest inductionHypothesis =>
      have counted := inductionHypothesis (index + 1)
      unfold reportAfter Report.append
      simp only [List.length_append, List.countP_cons, ← counted]
      cases project.lineOutcome owner index line with
      | bare absent edited reported =>
          simp only [absent, reported, Report.empty, List.length_nil, Option.isSome_none,
            Bool.false_eq_true, ↓reduceIte]
          omega
      | unresolved occurrence found aimless edited reported =>
          simp only [found, reported, List.length_nil, Option.isSome_some, ↓reduceIte]
          omega
      | replaced occurrence replacement found resolved edited reported =>
          simp only [found, reported, List.length_singleton, Option.isSome_some, ↓reduceIte]
          omega

/-! ## The report on a text -/

/-- The report on lines without an ambiguous one describes what becomes of
them line by line. -/
theorem describes_reportAfter (project : Project) (owner : Path) {lines : List Text}
    (single : lines.findIdx? Reference.isAmbiguous = none) :
    (project.reportAfter owner 0 lines).Describes project owner lines
      (lines.map fun line => (project.editLine owner line).text) := by
  refine ⟨List.length_map _, increasing_reportAfter 0 lines, ?_, ?_, ?_⟩
  · intro entry member
    obtain ⟨passed, line, occurrence, isLine, place, found, reads, resolved⟩ :=
      mem_reportAfter.1 member
    rw [Nat.zero_add] at place
    have edited : project.editLine owner line
        = .changed (occurrence.before ++ entry.replacement ++ occurrence.after) := by
      rw [reads] at resolved
      simp only [editLine, found, resolved]
    refine ⟨line, occurrence, occurrence.before, occurrence.after, place ▸ isLine, found, ?_, ?_,
      ?_, resolved, Reference.replace?_span_of_find? found entry.replacement, ?_⟩
    · rw [reads]
      exact Reference.whole_of_find? found
    · rw [reads, Reference.Occurrence.span]
    · rw [reads]
      exact Reference.textAt?_span_of_find? found
    · rw [List.getElem?_map, place, isLine, Option.map_some, edited]
      rfl
  · intro index line isLine unlisted
    rw [List.getElem?_map, isLine, Option.map_some]
    cases project.lineOutcome owner index line with
    | bare absent edited reported =>
        rw [edited]
        refine ⟨rfl, fun occurrence found => ?_⟩
        rw [absent] at found
        cases found
    | unresolved occurrence found aimless edited reported =>
        rw [edited]
        refine ⟨rfl, fun occurrence' found' => ?_⟩
        cases found.symm.trans found'
        exact ⟨occurrence.specifier, Reference.textAt?_span_of_find? found, aimless⟩
    | replaced occurrence replacement found resolved edited reported =>
        have isListed : Substitution.mk index occurrence.specifier replacement
            ∈ (project.reportAfter owner 0 lines).substitutions :=
          mem_reportAfter.2
            ⟨index, line, occurrence, isLine, (Nat.zero_add index).symm, found, rfl, resolved⟩
        exact absurd rfl (unlisted _ isListed)
  · rw [count_reportAfter]
    apply List.countP_congr
    intro line member
    have notSeveral := Reference.findIdx?_isAmbiguous_eq_none_iff.1 single line member
    rw [decide_eq_true_eq, Reference.count_eq_one_iff notSeveral, Option.isSome_iff_exists]

end Project

/-- Lines and the report on them determine the outcome.  A description leaves
nothing open, whoever wrote it. -/
theorem Report.Describes.outcome_unique {report : Report} {project : Project} {path : Path}
    {lines first second : List Text} (isFirst : report.Describes project path lines first)
    (isSecond : report.Describes project path lines second) : first = second := by
  apply List.ext_getElem?
  intro index
  by_cases isListed : ∃ entry ∈ report.substitutions, entry.line = index
  · obtain ⟨entry, member, rfl⟩ := isListed
    obtain ⟨line, occurrence, before, after, isLine, found, -, -, -, -, spliced, isReplaced⟩ :=
      isFirst.listed entry member
    obtain ⟨line', occurrence', before', after', isLine', found', -, -, -, -, spliced',
      isReplaced'⟩ := isSecond.listed entry member
    cases isLine.symm.trans isLine'
    cases found.symm.trans found'
    rw [isReplaced, isReplaced', ← spliced, spliced']
  · have unlisted : ∀ entry ∈ report.substitutions, entry.line ≠ index := by
      intro entry member isIndex
      exact isListed ⟨entry, member, isIndex⟩
    cases isLine : lines[index]? with
    | none =>
        have beyond : lines.length ≤ index := List.getElem?_eq_none_iff.1 isLine
        rw [List.getElem?_eq_none (by rw [isFirst.sameLength]; exact beyond),
          List.getElem?_eq_none (by rw [isSecond.sameLength]; exact beyond)]
    | some line =>
        rw [(isFirst.unlisted index line isLine unlisted).1,
          (isSecond.unlisted index line isLine unlisted).1]

/-! ## The report on a file -/

namespace Project

variable {project : Project}

theorem usablePath?_of_named {path : Path} (named : path.bytes ≠ []) (contents : Contents) :
    File.usablePath? ⟨some path, contents⟩ = some path := by
  simp [File.usablePath?, named]

/-- A file with the bytes of a text is edited as the text. -/
theorem editFile_buffered_encode (project : Project) {path : Path} (named : path.bytes ≠ [])
    (text : Text) :
    project.editFile ⟨some path, .buffered (Utf8.encode text)⟩
      = (project.editText path text).map fun edited =>
          ⟨some path, .buffered (Utf8.encode edited.text), edited.report⟩ := by
  have usable := usablePath?_of_named named (.buffered (Utf8.encode text))
  cases isEncoded : Utf8.encode text with
  | nil =>
      rw [Utf8.encode_eq_nil_iff.1 isEncoded]
      rfl
  | cons byte others =>
      have decoded : Utf8.decode? (byte :: others) = some text := by
        rw [← isEncoded, Utf8.decode?_encode]
      rw [isEncoded] at usable
      simp only [editFile, usable, decoded, editText]
      cases project.reviseText path text with
      | error cause => rfl
      | ok revision =>
          obtain ⟨revised, report⟩ := revision
          cases revised with
          | none =>
              rw [← isEncoded]
              rfl
          | some revised => rfl

theorem editFile_buffered_eq_ok_iff (project : Project) {path : Path} (named : path.bytes ≠ [])
    {text : Text} {edited : EditedFile} :
    project.editFile ⟨some path, .buffered (Utf8.encode text)⟩ = .ok edited
      ↔ ∃ editedText, project.editText path text = .ok editedText
        ∧ edited = ⟨some path, .buffered (Utf8.encode editedText.text), editedText.report⟩ := by
  rw [editFile_buffered_encode project named, Outcome.map_eq_ok_iff]

/-- A file with contents is edited only as the text of its contents, at its
path. -/
theorem exists_text_of_editFile {file : File} {bytes : List UInt8} {edited : EditedFile}
    (held : file.contents = .buffered bytes) (nonempty : bytes ≠ [])
    (accepted : project.editFile file = .ok edited) :
    ∃ path text, path.bytes ≠ [] ∧ file = ⟨some path, .buffered (Utf8.encode text)⟩ := by
  unfold editFile at accepted
  rw [held] at accepted
  cases bytes with
  | nil => exact absurd rfl nonempty
  | cons byte others =>
      simp only at accepted
      split at accepted
      · cases accepted
      · rename_i path usable
        split at accepted
        · cases accepted
        · rename_i text decoded
          obtain ⟨present, named⟩ := Option.filter_eq_some_iff.1 usable
          refine ⟨path, text, by simpa using named, ?_⟩
          rw [← Utf8.decode?_eq_some_iff.1 decoded, ← held, ← present]

/-- **The report describes the output exactly.**  With the lines of its text,
the report on a file tells the contents that the edited file has. -/
theorem describes_of_editFile {file : File} {bytes : List UInt8} {edited : EditedFile}
    (held : file.contents = .buffered bytes) (nonempty : bytes ≠ [])
    (accepted : project.editFile file = .ok edited) :
    ∃ path text outcome, file.path = some path ∧ Utf8.decode? bytes = some text
      ∧ edited.report.Describes project path (Separated.split '\n' text) outcome
      ∧ edited.contents = .buffered (Utf8.encode (Separated.join '\n' outcome))
      ∧ (edited.report.isUnchanged = true → edited.contents = .buffered bytes) := by
  obtain ⟨path, text, named, rfl⟩ := exists_text_of_editFile held nonempty accepted
  cases held
  obtain ⟨editedText, result, rfl⟩ := (editFile_buffered_eq_ok_iff project named).1 accepted
  obtain ⟨single, rfl⟩ := (editText_eq_ok_iff project path).1 result
  refine ⟨path, text, _, rfl, Utf8.decode?_encode text, describes_reportAfter project path single,
    rfl, ?_⟩
  intro unchanged
  simp only
  rw [map_editLine_of_isUnchanged unchanged, Separated.join_split]

theorem describes_of_editFile_oneAlias :
    ∃ outcome,
      (⟨[⟨0, "@a/x".toList, "../a/x".toList⟩], 1⟩ : Report).Describes oneAlias
          (Path.ofText "s/i.ts".toList)
          (Separated.split '\n' "é from '@a/x'\n\nimport('b')".toList) outcome
        ∧ Contents.buffered (Utf8.encode "é from '../a/x'\n\nimport('b')".toList)
          = .buffered (Utf8.encode (Separated.join '\n' outcome)) := by
  have nonempty : Utf8.encode "é from '@a/x'\n\nimport('b')".toList ≠ [] := by decide +kernel
  have accepted : oneAlias.editFile ⟨some (Path.ofText "s/i.ts".toList),
        .buffered (Utf8.encode "é from '@a/x'\n\nimport('b')".toList)⟩
      = .ok ⟨some (Path.ofText "s/i.ts".toList),
          .buffered (Utf8.encode "é from '../a/x'\n\nimport('b')".toList),
          ⟨[⟨0, "@a/x".toList, "../a/x".toList⟩], 1⟩⟩ := by
    have edited : oneAlias.editText (Path.ofText "s/i.ts".toList)
        "é from '@a/x'\n\nimport('b')".toList
        = .ok ⟨"é from '../a/x'\n\nimport('b')".toList,
            ⟨[⟨0, "@a/x".toList, "../a/x".toList⟩], 1⟩⟩ := by
      rfl
    have named : (Path.ofText "s/i.ts".toList).bytes ≠ [] := by decide +kernel
    exact (editFile_buffered_eq_ok_iff oneAlias named).2 ⟨_, edited, rfl⟩
  obtain ⟨path, text, outcome, present, decoded, describes, isContents, -⟩ :=
    describes_of_editFile rfl nonempty accepted
  rw [Utf8.decode?_encode] at decoded
  cases present
  cases decoded
  exact ⟨outcome, describes, isContents⟩

end Project

end PathAlias
