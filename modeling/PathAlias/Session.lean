import PathAlias.Configuration.Document
import PathAlias.Project.File

/-!
Contract: a working session with one user, which is everything that the library
offers, one call after another: options are put together or read, a project is
made of them, and the project is used.

Owns:
- what a session remembers between commands;
- the commands, their replies, and why a command fails.

Does not own: how commands and replies are written down.

A command that fails leaves the session as it was.  What sessions keep up from
one command to the next is stated in `PathAlias.Proofs.Session`.
-/

set_option autoImplicit false

namespace PathAlias

/-- What is remembered between commands. -/
structure Session where
  options : PathOptions
  configuration : Option Configuration
  project : Option Project
  /-- The text that was edited last, as it is now, and its path. -/
  latest : Option (Path × Text)
  deriving DecidableEq

namespace Session

def initial : Session := ⟨.empty, none, none, none⟩

/-- What a user can ask for. -/
inductive Command where
  | resetOptions
  | setBaseUrl (baseUrl : Text)
  | addAlias (pattern : Text) (targets : List Text)
  | useOptions
  | load (text : Text)
  | loadMerged (text : Text)
  | unload
  | build (workingDirectory : Path)
  | edit (path : Path) (text : Text)
  | editLatest
  | resolve (importer : Path) (specifier : Text)
  deriving DecidableEq

/-- What a command answers. -/
inductive Reply where
  | options (options : PathOptions)
  | configuration (configuration : Configuration)
  | nothing
  | mapping (mapping : PathMapping)
  | text (text : Text)
  | specifier (specifier : Option Text)
  deriving DecidableEq

/-- Why a command fails. -/
inductive Failure where
  | work (error : EditError)
  | noProject
  | noText
  deriving DecidableEq

namespace Failure

def message : Failure → Text
  | work error => error.message
  | noProject => "no rewriter".toList
  | noText => "nothing rewritten".toList

end Failure

def putOptions (session : Session) (options : PathOptions) : Reply × Session :=
  (.options options, { session with options := options })

def putConfiguration (session : Session) (configuration : Configuration) : Reply × Session :=
  (.configuration configuration, { session with configuration := some configuration })

def putLoaded (session : Session) :
    Except ConfigurationError Configuration → Except Failure (Reply × Session)
  | .ok configuration => .ok (session.putConfiguration configuration)
  | .error cause => .error (.work (.configuration cause))

/-- A text edited and remembered with its path. -/
def editText (session : Session) (path : Path) (text : Text) :
    Except Failure (Reply × Session) :=
  match session.project with
  | none => .error .noProject
  | some project =>
      match project.editText path text with
      | .error error => .error (.work error)
      | .ok edited =>
          .ok (.text edited.text, { session with latest := some (path, edited.text) })

def run (session : Session) : Command → Except Failure (Reply × Session)
  | .resetOptions => .ok (session.putOptions .empty)
  | .setBaseUrl baseUrl => .ok (session.putOptions (session.options.setBaseUrl baseUrl))
  | .addAlias pattern targets =>
      .ok (session.putOptions (session.options.addAlias pattern targets))
  | .useOptions => .ok (session.putConfiguration (.flat session.options))
  | .load text => session.putLoaded (Configuration.ofText text)
  | .loadMerged text => session.putLoaded (Configuration.ofMergedText text)
  | .unload => .ok (.nothing, { session with configuration := none })
  | .build workingDirectory =>
      match Project.ofConfiguration session.configuration workingDirectory with
      | .error cause => .error (.work (.configuration cause))
      | .ok project => .ok (.mapping project.mapping, { session with project := some project })
  | .edit path text => session.editText path text
  | .editLatest =>
      match session.latest with
      | none => .error .noText
      | some (path, text) => session.editText path text
  | .resolve importer specifier =>
      match session.project with
      | none => .error .noProject
      | some project => .ok (.specifier (project.resolve? importer specifier), session)

/-- One command in a series: its reply or failure, and the session that the
next command finds. -/
def step (session : Session) (command : Command) : Except Failure Reply × Session :=
  match session.run command with
  | .ok (reply, next) => (.ok reply, next)
  | .error failure => (.error failure, session)

def runAll : Session → List Command → List (Except Failure Reply)
  | _, [] => []
  | session, command :: rest =>
      (session.step command).1 :: runAll (session.step command).2 rest

end Session

end PathAlias
