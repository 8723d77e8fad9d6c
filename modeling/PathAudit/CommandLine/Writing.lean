import PathAudit.CommandLine.Run

/-! Commands that write as they go. What a command has to say it writes piece by piece, and the output
may refuse any of the pieces. An `Action` is such a computation kept as data, so that it can be run
on a disk and an output given as values as well as on the machine's. -/

namespace PathAudit.CommandLine

/-- A computation that may ask the disk and write to an output, which takes each piece of text or
refuses it. -/
inductive Action (α : Type) where
  | done (a : α)
  | entry (path : String) (next : Option EntryKind → Action α)
  | text (path : String) (next : Except DiskError String → Action α)
  | workingDirectory (next : Except DiskError Location → Action α)
  | write (piece : String) (next : Except DiskError Unit → Action α)

/-- An output: whether it takes a piece after those that it took before. -/
abbrev Output := List String → String → Except DiskError Unit

/-- How a computation ended, and what the output had taken by then. -/
structure Outcome (α : Type) where
  result : α
  taken : List String
deriving DecidableEq, Repr

namespace Action

variable {α β : Type}

def bind : Action α → (α → Action β) → Action β
  | done a, f => f a
  | entry path next, f => entry path fun r => (next r).bind f
  | text path next, f => text path fun r => (next r).bind f
  | workingDirectory next, f => workingDirectory fun r => (next r).bind f
  | write piece next, f => write piece fun r => (next r).bind f

instance : Monad Action where
  pure := done
  bind := bind

def ask : Query α → Action α
  | .done a => done a
  | .entry path next => entry path fun r => ask (next r)
  | .text path next => text path fun r => ask (next r)
  | .workingDirectory next => workingDirectory fun r => ask (next r)

def writeAll : List String → Action (Except DiskError Unit)
  | [] => done (.ok ())
  | piece :: pieces => write piece fun
    | .error e => done (.error e)
    | .ok () => writeAll pieces

/-- How a computation ends on a disk with an output that took some pieces before. -/
def run (disk : Disk) (output : Output) (taken : List String) : Action α → Outcome α
  | done a => ⟨a, taken⟩
  | entry path next => (next (disk.entry path)).run disk output taken
  | text path next => (next (disk.text path)).run disk output taken
  | workingDirectory next => (next disk.workingDirectory).run disk output taken
  | write piece next =>
    match output taken piece with
    | .ok () => (next (.ok ())).run disk output (taken ++ [piece])
    | .error e => (next (.error e)).run disk output taken

end Action

inductive Failure
  | command (cause : CommandError)
  | output (cause : DiskError)
deriving DecidableEq, Repr

def Failure.message : Failure → String
  | .command cause => cause.message
  | .output cause => cause.message

/-- The pieces in which findings are written: one for each finding, or one for all and the end of its
last line. -/
def reportPieces (format : Format) (p : SourceSet) (findings : List Diagnostic) : List String :=
  match format with
  | .short => findings.map fun d => d.summary ++ "\n"
  | .json => [Json.pretty 0 (.array (findings.map Diagnostic.toJson)), "\n"]
  | .pretty => findings.map fun d => snippet d (((d.fileName.bind p.get?).map Source.text).getD "")

/-- Writes the last that a command has to say, and ends with its verdict. -/
def conclude (passed : Bool) (pieces : List String) : Action (Except Failure Bool) := do
  match ← Action.writeAll pieces with
  | .error e => pure (.error (.output e))
  | .ok () => pure (.ok passed)

def actCheck (a : CheckArguments) : Action (Except Failure Bool) := do
  match ← Action.ask (checkRoot a.root) with
  | .error e => pure (.error (.command e))
  | .ok root =>
    match ← Action.ask (Config.load root.toPath) with
    | .error e => pure (.error (.command (.config e)))
    | .ok configured =>
      match ← Action.ask (addFiles root SourceSet.empty a.files) with
      | .error e => pure (.error (.command e))
      | .ok sources => do
        let checker : Checker := ⟨effectiveConfig a configured, root⟩
        let service := (Service.ofSources sources).withPathChecks checker
        let findings ← Action.ask (findingsOf service service.names)
        conclude (!findings.any Diagnostic.isError) (reportPieces a.format sources findings)

/-- Runs a command that writes all of its output as one piece. -/
def actAtOnce (command : Query (Except CommandError Finished)) : Action (Except Failure Bool) := do
  match ← Action.ask command with
  | .error e => pure (.error (.command e))
  | .ok finished => conclude finished.passed [finished.output]

def Command.act : Command → Action (Except Failure Bool)
  | .check a => actCheck a
  | .validate a => actAtOnce (runValidate a)
  | .root directory => actAtOnce (runRoot directory)

end PathAudit.CommandLine
