import PathAlias.Proofs.Project.Report

/-!
Contract: what editing makes of a file, whatever the file is like.

Owns:
- the outcomes of a file, told by its path, its contents and the edit of its text;
- files that are refused before their text is looked at;
- the main statement: editing a file has exactly these outcomes, so that one fault
  goes before another, and no further one exists.

Does not own: what editing makes of a text.

Several faults can meet in one file.  The conditions below exclude each other, so
that they say which one is named: contents come before the path, the path before
the encoding, and the encoding before the lines.
-/

set_option autoImplicit false

namespace PathAlias.Project

/-- What a file is edited to, or why it is refused. -/
inductive Yields (project : Project) : File → Except EditError EditedFile → Prop where
  | streamed (path : Option Path) : Yields project ⟨path, .streamed⟩ (.error .streamed)
  | null (path : Option Path) : Yields project ⟨path, .null⟩ (.ok ⟨path, .null, .empty⟩)
  | empty (path : Option Path) :
      Yields project ⟨path, .buffered []⟩ (.ok ⟨path, .buffered [], .empty⟩)
  /-- Contents need a path, even if they are not text. -/
  | unnamed (path : Option Path) (bytes : List UInt8) (nonempty : bytes ≠ [])
      (unnamed : path = none ∨ path = some ⟨[]⟩) :
      Yields project ⟨path, .buffered bytes⟩ (.error .noPath)
  /-- With a path they need to be text, before any line counts. -/
  | malformed (path : Path) (bytes : List UInt8) (nonempty : bytes ≠ [])
      (named : path.bytes ≠ []) (malformed : ∀ text, Utf8.encode text ≠ bytes) :
      Yields project ⟨some path, .buffered bytes⟩ (.error (.notUtf8 path))
  | refused (path : Path) (text : Text) (cause : EditError) (nonempty : text ≠ [])
      (named : path.bytes ≠ []) (failed : project.editText path text = .error cause) :
      Yields project ⟨some path, .buffered (Utf8.encode text)⟩ (.error cause)
  | edited (path : Path) (text : Text) (edited : EditedText) (nonempty : text ≠ [])
      (named : path.bytes ≠ []) (accepted : project.editText path text = .ok edited) :
      Yields project ⟨some path, .buffered (Utf8.encode text)⟩
        (.ok ⟨some path, .buffered (Utf8.encode edited.text), edited.report⟩)

section

variable {project : Project}

/-! ## Files that are refused unread -/

theorem usablePath?_eq_none_iff {path : Option Path} {contents : Contents} :
    File.usablePath? ⟨path, contents⟩ = none ↔ path = none ∨ path = some ⟨[]⟩ := by
  cases path with
  | none => simp [File.usablePath?]
  | some path =>
      obtain ⟨bytes⟩ := path
      simp [File.usablePath?]

theorem editFile_of_unnamed {path : Option Path} {bytes : List UInt8} (nonempty : bytes ≠ [])
    (unnamed : path = none ∨ path = some ⟨[]⟩) :
    project.editFile ⟨path, .buffered bytes⟩ = .error .noPath := by
  cases bytes with
  | nil => exact absurd rfl nonempty
  | cons byte others => simp only [editFile, usablePath?_eq_none_iff.2 unnamed]

theorem editFile_of_malformed {path : Path} {bytes : List UInt8} (nonempty : bytes ≠ [])
    (named : path.bytes ≠ []) (malformed : ∀ text, Utf8.encode text ≠ bytes) :
    project.editFile ⟨some path, .buffered bytes⟩ = .error (.notUtf8 path) := by
  have undecoded : Utf8.decode? bytes = none := by
    rw [Option.eq_none_iff_forall_ne_some]
    intro text decoded
    exact malformed text (Utf8.decode?_eq_some_iff.1 decoded).symm
  cases bytes with
  | nil => exact absurd rfl nonempty
  | cons byte others => simp only [editFile, usablePath?_of_named named, undecoded]

/-! ## Every file -/

/-- An outcome that a file can have is the one that editing gives. -/
theorem Yields.editFile_eq {file : File} {outcome : Except EditError EditedFile}
    (yields : project.Yields file outcome) : project.editFile file = outcome := by
  cases yields with
  | streamed path => rfl
  | null path => rfl
  | empty path => rfl
  | unnamed path bytes nonempty unnamed => exact editFile_of_unnamed nonempty unnamed
  | malformed path bytes nonempty named malformed =>
      exact editFile_of_malformed nonempty named malformed
  | refused path text cause nonempty named failed =>
      rw [editFile_buffered_encode project named, failed]
      rfl
  | edited path text edited nonempty named accepted =>
      rw [editFile_buffered_encode project named, accepted]
      rfl

theorem exists_yields_encode (project : Project) {path : Path} (named : path.bytes ≠ [])
    {text : Text} (nonempty : text ≠ []) :
    ∃ outcome, project.Yields ⟨some path, .buffered (Utf8.encode text)⟩ outcome := by
  cases result : project.editText path text with
  | error cause => exact ⟨_, .refused path text cause nonempty named result⟩
  | ok edited => exact ⟨_, .edited path text edited nonempty named result⟩

/-- Every file has an outcome. -/
theorem exists_yields (project : Project) (file : File) :
    ∃ outcome, project.Yields file outcome := by
  obtain ⟨path, contents⟩ := file
  cases contents with
  | streamed => exact ⟨_, .streamed path⟩
  | null => exact ⟨_, .null path⟩
  | buffered bytes =>
      by_cases nonempty : bytes = []
      · subst nonempty
        exact ⟨_, .empty path⟩
      by_cases unnamed : path = none ∨ path = some ⟨[]⟩
      · exact ⟨_, .unnamed path bytes nonempty unnamed⟩
      rw [not_or] at unnamed
      obtain ⟨path, rfl⟩ := Option.ne_none_iff_exists'.1 unnamed.1
      have named : path.bytes ≠ [] := by
        intro isEmpty
        apply unnamed.2
        rw [← isEmpty]
      by_cases wellFormed : ∃ text, Utf8.encode text = bytes
      · obtain ⟨text, rfl⟩ := wellFormed
        exact exists_yields_encode project named (mt Utf8.encode_eq_nil_iff.2 nonempty)
      · exact ⟨_, .malformed path bytes nonempty named (not_exists.1 wellFormed)⟩

end

/-- **Editing a file has exactly these outcomes.**  Apart from contents that are
not at hand, a missing path and malformed text, a file is refused only for an
ambiguous line, in each case under its own path.  A file that is edited keeps its
path, and contents that are at hand are text afterwards. -/
theorem editFile_eq_iff_yields (project : Project) (file : File) :
    (∀ outcome, project.editFile file = outcome ↔ project.Yields file outcome)
      ∧ (∀ cause, project.editFile file = .error cause →
        cause = .streamed ∨ cause = .noPath
          ∨ ∃ path, file.path = some path
            ∧ (cause = .notUtf8 path ∨ ∃ number, cause = .ambiguousLine ⟨path, number⟩))
      ∧ ∀ edited, project.editFile file = .ok edited →
        edited.path = file.path
          ∧ ∀ bytes, file.contents = .buffered bytes →
            ∃ text, edited.contents = .buffered (Utf8.encode text)
              ∧ edited.contents.text? = some text := by
  have exactly : ∀ outcome, project.editFile file = outcome ↔ project.Yields file outcome := by
    intro outcome
    refine ⟨?_, Yields.editFile_eq⟩
    intro isOutcome
    obtain ⟨other, yields⟩ := exists_yields project file
    rw [← isOutcome, yields.editFile_eq]
    exact yields
  refine ⟨exactly, ?_, ?_⟩
  · intro cause failed
    cases (exactly _).1 failed with
    | streamed path => exact .inl rfl
    | unnamed path bytes nonempty unnamed => exact .inr (.inl rfl)
    | malformed path bytes nonempty named malformed =>
        exact .inr (.inr ⟨path, rfl, .inl rfl⟩)
    | refused path text cause nonempty named failed =>
        obtain ⟨passed, -, isLine⟩ := (editText_eq_error_iff project path).1 failed
        exact .inr (.inr ⟨path, rfl, .inr ⟨passed + 1, isLine⟩⟩)
  · intro edited accepted
    cases (exactly _).1 accepted with
    | null path => exact ⟨rfl, fun bytes held => by cases held⟩
    | empty path => exact ⟨rfl, fun bytes _ => ⟨[], rfl, rfl⟩⟩
    | edited path text editedText nonempty named result =>
        exact ⟨rfl, fun bytes _ => ⟨editedText.text, rfl, Utf8.decode?_encode editedText.text⟩⟩

end PathAlias.Project
