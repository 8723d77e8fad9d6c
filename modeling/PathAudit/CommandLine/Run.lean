import PathAudit.Checker.Service
import PathAudit.CommandLine.Arguments
import PathAudit.CommandLine.Snippet
import PathAudit.Config.File
import PathAudit.Json.Diagnostic
import PathAudit.Json.Printer
import PathAudit.Validator

/-! Running commands. A command finishes with all of its output and a verdict, or fails with an
error and no output. -/

namespace PathAudit.CommandLine

inductive CommandError
  | root (cause : RootError)
  | config (cause : ConfigError)
  | badRoot (cause : DiskError)
  | unreadable (path : String) (cause : DiskError)
deriving DecidableEq, Repr

def CommandError.message : CommandError → String
  | .root (.notFound start) => (RootError.notFound start).message
  | .root (.currentDirectory cause) =>
    (RootError.currentDirectory cause).message ++ ": " ++ cause.message
  | .config (.unreadable path cause) =>
    (ConfigError.unreadable path cause).message ++ ": " ++ cause.message
  | .config (.unparsable path cause) =>
    (ConfigError.unparsable path cause).message ++ ": " ++ cause.message
  | .badRoot cause => cause.message
  | .unreadable path cause => s!"failed to read '{path}': {cause.message}"

/-- What a command that ran to its end wrote, and whether it found nothing wrong. -/
structure Finished where
  passed : Bool
  output : String
deriving DecidableEq, Repr

def checkRoot (root : Option String) : Query (Except CommandError Location) := do
  match root with
  | some path => pure ((← Query.locate path).mapError .badRoot)
  | none => pure ((← ProjectRoot.current).mapError .root)

/-- The settings of a project with those of the command line in their place. -/
def effectiveConfig (a : CheckArguments) (configured : Config) : Config where
  severity := a.severity.getD configured.severity
  strictKinds := a.strictKinds || configured.strictKinds

/-- How a checked file is named: by its path from the root if it lies within, or else as given. -/
def shownName (root : Location) (path : String) : Query String := do
  match ← Query.locate path with
  | .error _ => pure path
  | .ok l => pure (if l.startsWith root then (l.relativeTo root).toPath else path)

/-- Adds the texts of the files at some paths to a set, up to the first that cannot be read. -/
def addFiles (root : Location) (p : SourceSet) :
    List String → Query (Except CommandError SourceSet)
  | [] => pure (.ok p)
  | path :: paths => do
    match ← Query.textAt path with
    | .error e => pure (.error (.unreadable path e))
    | .ok text => addFiles root (p.insert ⟨← shownName root path, text⟩) paths

/-- The findings of a service about some files: for each file its syntax errors and then its
semantic findings. -/
def findingsOf (s : Service) : List String → Query (List Diagnostic)
  | [] => pure []
  | name :: names => do
    let semantic ← s.semantic name
    pure (s.syntactic name ++ semantic ++ (← findingsOf s names))

def report (format : Format) (p : SourceSet) (findings : List Diagnostic) : String :=
  match format with
  | .short => String.join (findings.map fun d => d.summary ++ "\n")
  | .json => Json.pretty 0 (.array (findings.map Diagnostic.toJson)) ++ "\n"
  | .pretty => String.join <| findings.map fun d =>
      snippet d (((d.fileName.bind p.get?).map Source.text).getD "")

/-- Checks files. Nothing is wrong when no finding is an error. -/
def runCheck (a : CheckArguments) : Query (Except CommandError Finished) := do
  match ← checkRoot a.root with
  | .error e => pure (.error e)
  | .ok root =>
    match ← Config.load root.toPath with
    | .error e => pure (.error (.config e))
    | .ok configured =>
      match ← addFiles root SourceSet.empty a.files with
      | .error e => pure (.error e)
      | .ok sources => do
        let checker : Checker := ⟨effectiveConfig a configured, root⟩
        let service := (Service.ofSources sources).withPathChecks checker
        let findings ← findingsOf service service.names
        pure (.ok ⟨!findings.any Diagnostic.isError, report a.format sources findings⟩)

/-- Validates one path. A root that cannot be found is no verdict on the path. -/
def runValidate (a : ValidateArguments) : Query (Except CommandError Finished) := do
  let validator ← match a.root with
    | none => pure (.ok Validator.rootless)
    | some path => do pure ((← Query.locate path).map fun l => (⟨some l⟩ : Validator))
  match validator with
  | .error e => pure (.error (.badRoot e))
  | .ok v =>
    match ← v.validate a.kind a.path a.message with
    | .ok path => pure (.ok ⟨true, path ++ "\n"⟩)
    | .error (.root e) => pure (.error (.root e))
    | .error e => pure (.ok ⟨false, e.message ++ "\n"⟩)

def runRoot (directory : Option String) : Query (Except CommandError Finished) := do
  let root ← match directory with
    | some path => ProjectRoot.find path
    | none => ProjectRoot.current
  match root with
  | .ok root => pure (.ok ⟨true, root.toPath ++ "\n"⟩)
  | .error e => pure (.error (.root e))

def Command.run : Command → Query (Except CommandError Finished)
  | .check a => runCheck a
  | .validate a => runValidate a
  | .root directory => runRoot directory

end PathAudit.CommandLine
