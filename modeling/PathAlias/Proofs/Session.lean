import PathAlias.Session

/-!
Contract: what a session keeps from one command to the next.

Owns:
- all that a command can do to a session, with the reply to it;
- sound sessions: the project is one that a configuration has, and the text that
  was edited last is one that such a project makes;
- a series of commands: the session that it leaves, and what it replies with;
- failed commands, which a series can go without.

Does not own: what the commands compute.
-/

set_option autoImplicit false

namespace PathAlias.Session

/-! ## One command -/

/-- What a session replies and becomes when a command does not fail. -/
inductive Answers (session : Session) : Reply → Session → Prop
  | options (options : PathOptions) :
      Answers session (.options options) { session with options := options }
  | configuration (configuration : Configuration) :
      Answers session (.configuration configuration)
        { session with configuration := some configuration }
  | unloaded : Answers session .nothing { session with configuration := none }
  | built (workingDirectory : Path) (project : Project)
      (validated : Project.ofConfiguration session.configuration workingDirectory = .ok project) :
      Answers session (.mapping project.mapping) { session with project := some project }
  | edited (project : Project) (path : Path) (text : Text) (edited : EditedText)
      (inUse : session.project = some project) (accepted : project.editText path text = .ok edited) :
      Answers session (.text edited.text) { session with latest := some (path, edited.text) }
  | resolved (project : Project) (importer : Path) (specifier : Text)
      (inUse : session.project = some project) :
      Answers session (.specifier (project.resolve? importer specifier)) session

variable {session next : Session} {command : Command} {reply : Reply}

theorem answers_of_putLoaded {loaded : Except ConfigurationError Configuration}
    (accepted : session.putLoaded loaded = .ok (reply, next)) : session.Answers reply next := by
  cases loaded with
  | error cause => cases accepted
  | ok configuration =>
      cases accepted
      exact .configuration configuration

theorem answers_of_editText {path : Path} {text : Text}
    (accepted : session.editText path text = .ok (reply, next)) : session.Answers reply next := by
  unfold editText at accepted
  split at accepted
  · cases accepted
  · rename_i project inUse
    split at accepted
    · cases accepted
    · rename_i edited done
      cases accepted
      exact .edited project path text edited inUse done

theorem answers_of_run (accepted : session.run command = .ok (reply, next)) :
    session.Answers reply next := by
  cases command with
  | resetOptions | setBaseUrl | addAlias =>
      cases accepted
      exact .options _
  | useOptions =>
      cases accepted
      exact .configuration _
  | unload =>
      cases accepted
      exact .unloaded
  | load text | loadMerged text => exact answers_of_putLoaded accepted
  | build workingDirectory =>
      simp only [run] at accepted
      split at accepted
      · cases accepted
      · rename_i project validated
        cases accepted
        exact .built workingDirectory project validated
  | edit path text => exact answers_of_editText accepted
  | editLatest =>
      simp only [run] at accepted
      split at accepted
      · cases accepted
      · exact answers_of_editText accepted
  | resolve importer specifier =>
      simp only [run] at accepted
      split at accepted
      · cases accepted
      · rename_i project inUse
        cases accepted
        exact .resolved project importer specifier inUse

theorem step_of_run (accepted : session.run command = .ok (reply, next)) :
    session.step command = (.ok reply, next) := by
  rw [step, accepted]

theorem step_of_run_eq_error {failure : Failure} (failed : session.run command = .error failure) :
    session.step command = (.error failure, session) := by
  rw [step, failed]

/-- **A command that fails leaves the session as it was.** -/
theorem step_of_error {failure : Failure}
    (failed : (session.step command).1 = .error failure) : (session.step command).2 = session := by
  cases done : session.run command with
  | error other => rw [step_of_run_eq_error done]
  | ok answer =>
      rw [step_of_run done] at failed
      cases failed

/-! ## Sound sessions -/

/-- A text that a project makes of some text at a path, where the project is the
one that a configuration has. -/
def IsEdited (path : Path) (text : Text) : Prop :=
  ∃ configuration workingDirectory project original edited,
    Project.ofConfiguration configuration workingDirectory = .ok project
      ∧ project.editText path original = .ok edited ∧ edited.text = text

/-- All that a session remembers has come out of the work itself. -/
structure Sound (session : Session) : Prop where
  project : ∀ project, session.project = some project → ∃ configuration workingDirectory,
    Project.ofConfiguration configuration workingDirectory = .ok project
  latest : ∀ path text, session.latest = some (path, text) → IsEdited path text
  inUse : session.latest ≠ none → session.project ≠ none

theorem sound_initial : initial.Sound where
  project := by
    intro project inUse
    cases inUse
  latest := by
    intro path text isLatest
    cases isLatest
  inUse edited := absurd rfl edited

section

variable (sound : session.Sound)

include sound

theorem Sound.of_answers (answer : session.Answers reply next) : next.Sound := by
  cases answer with
  | options options => exact ⟨sound.project, sound.latest, sound.inUse⟩
  | configuration configuration => exact ⟨sound.project, sound.latest, sound.inUse⟩
  | unloaded => exact ⟨sound.project, sound.latest, sound.inUse⟩
  | built workingDirectory project validated =>
      refine ⟨?_, sound.latest, fun _ => Option.some_ne_none project⟩
      intro other inUse
      cases inUse
      exact ⟨session.configuration, workingDirectory, validated⟩
  | edited project path text edited inUse accepted =>
      refine ⟨sound.project, ?_, fun _ => by simp [inUse]⟩
      intro place content isLatest
      cases isLatest
      obtain ⟨configuration, workingDirectory, validated⟩ := sound.project project inUse
      exact ⟨configuration, workingDirectory, project, text, edited, validated, accepted, rfl⟩
  | resolved project importer specifier inUse => exact sound

/-- Whatever a command does, the session stays sound. -/
theorem Sound.step (command : Command) : (session.step command).2.Sound := by
  cases done : session.run command with
  | error failure => rwa [step_of_run_eq_error done]
  | ok answer =>
      rw [step_of_run done]
      exact sound.of_answers (answers_of_run done)

/-- A text in a reply is an edited one. -/
theorem Sound.isEdited_of_step {text : Text}
    (replied : (session.step command).1 = .ok (.text text)) : ∃ path, IsEdited path text := by
  cases done : session.run command with
  | error failure =>
      rw [step_of_run_eq_error done] at replied
      cases replied
  | ok answer =>
      obtain ⟨reply, next⟩ := answer
      rw [step_of_run done] at replied
      cases replied
      have answers := answers_of_run done
      have stillSound := sound.of_answers answers
      cases answers with
      | edited project path original edited inUse accepted =>
          exact ⟨path, stillSound.latest path edited.text rfl⟩

/-- Where there is a text to be edited once more, there is a project for it. -/
theorem Sound.run_editLatest_ne : session.run .editLatest ≠ .error .noProject := by
  intro failed
  simp only [run] at failed
  split at failed
  · cases failed
  · rename_i path text isLatest
    obtain ⟨project, inUse⟩ := Option.ne_none_iff_exists'.1 (sound.inUse (by simp [isLatest]))
    simp only [editText, inUse] at failed
    split at failed <;> cases failed

end

/-! ## A series of commands -/

def after (session : Session) (commands : List Command) : Session :=
  commands.foldl (fun session command => (session.step command).2) session

@[simp]
theorem after_cons (session : Session) (command : Command) (rest : List Command) :
    session.after (command :: rest) = (session.step command).2.after rest := rfl

/-- The commands of a series that do not fail when their turn comes. -/
def accepted : Session → List Command → List Command
  | _, [] => []
  | session, command :: rest =>
      match session.run command with
      | .ok (_, next) => command :: accepted next rest
      | .error _ => accepted session rest

/-- A series of commands keeps a session sound. -/
theorem Sound.after (sound : session.Sound) (commands : List Command) :
    (session.after commands).Sound := by
  induction commands generalizing session with
  | nil => exact sound
  | cons command rest inductionHypothesis => exact inductionHypothesis (sound.step command)

/-- **Every text in the replies is an edited one**, by a project that some
configuration has. -/
theorem Sound.isEdited_of_mem_runAll (sound : session.Sound) {commands : List Command}
    {text : Text} (replied : .ok (.text text) ∈ session.runAll commands) :
    ∃ path, IsEdited path text := by
  induction commands generalizing session with
  | nil => cases replied
  | cons command rest inductionHypothesis =>
      rcases List.mem_cons.1 replied with here | later
      · exact sound.isEdited_of_step here.symm
      · exact inductionHypothesis (sound.step command) later

/-- **Failed commands can be left out of a series.**  The session at its end is
the same without them, and so are the replies to all others. -/
theorem replay_accepted (session : Session) (commands : List Command) :
    session.after (session.accepted commands) = session.after commands
      ∧ session.runAll (session.accepted commands)
        = (session.runAll commands).filter fun outcome => outcome.isOk := by
  induction commands generalizing session with
  | nil => exact ⟨rfl, rfl⟩
  | cons command rest inductionHypothesis =>
      cases done : session.run command with
      | error failure =>
          have failed := step_of_run_eq_error done
          obtain ⟨sameEnd, sameReplies⟩ := inductionHypothesis session
          simp only [accepted, done, after_cons, runAll, failed]
          exact ⟨sameEnd, sameReplies⟩
      | ok answer =>
          obtain ⟨reply, next⟩ := answer
          have succeeded := step_of_run done
          obtain ⟨sameEnd, sameReplies⟩ := inductionHypothesis next
          simp only [accepted, done, after_cons, runAll, succeeded]
          refine ⟨sameEnd, ?_⟩
          rw [List.filter_cons_of_pos rfl, sameReplies]

end PathAlias.Session
