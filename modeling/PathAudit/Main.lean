import PathAudit.CommandLine.Writing

/-! The command line program. It answers the questions of a command from the machine's file
system, writes what the command writes, and exits with 0 if nothing was found wrong, 1 if something was, and 2 if
the command failed or was refused. -/

namespace PathAudit.Main

open CommandLine

def reason : IO.Error → DiskError
  | .noFileOrDirectory _ _ _ => .notFound
  | .inappropriateType _ 20 _ => .notDirectory
  | .inappropriateType _ 21 _ => .isDirectory
  | .inappropriateType _ 40 _ => .linkLoop
  | .invalidArgument _ 40 _ => .linkLoop
  | .invalidArgument _ 36 _ => .nameTooLong
  | e => .other (toString e)

def readText (path : String) : IO (Except DiskError String) := do
  match ← (IO.FS.readBinFile path).toBaseIO with
  | .error e => return .error (reason e)
  | .ok bytes =>
    match String.fromUTF8? bytes with
    | some s => return .ok s
    | none => return .error .notText

def readKind (path : String) : IO (Option EntryKind) := do
  try
    match (← (← IO.FS.realPath path).metadata).type with
    | .dir => return some .folder
    | .file => return some .file
    | _ => return some .special
  catch _ => return none

/-- Runs a computation on the machine's file system and its standard output. -/
def perform {α : Type} : Action α → IO α
  | .done a => pure a
  | .entry path next => do perform (next (← readKind path))
  | .text path next => do perform (next (← readText path))
  | .workingDirectory next => do
    match ← IO.currentDir.toBaseIO with
    | .ok directory => perform (next (.ok (Location.ofPath directory.toString)))
    | .error e => perform (next (.error (reason e)))
  | .write piece next => do
    match ← (IO.print piece).toBaseIO with
    | .ok () => perform (next (.ok ()))
    | .error e => perform (next (.error (reason e)))

def refuse : Refusal → String × UInt32
  | .help =>
    ("usage: pathguard [-v] check FILES... [--severity error|warn|off] [--strict-kinds] " ++
      "[--root DIR] [--format pretty|short|json] [--no-color]\n" ++
      "       pathguard [-v] validate file|folder|any PATH [--message TEXT] [--root DIR]\n" ++
      "       pathguard [-v] root [DIR]\n", 0)
  | .version => ("pathguard 0.2.0\n", 0)
  | .nothingGiven => ("error: no command given\n", 2)
  | .missingCommand => ("error: no command given\n", 2)
  | .unknownCommand name => (s!"error: unrecognized subcommand '{name}'\n", 2)
  | .unknownArgument argument => (s!"error: unexpected argument '{argument}' found\n", 2)
  | .unwantedValue option => (s!"error: unexpected value for '{option}'\n", 2)
  | .badValue value => (s!"error: invalid value '{value}'\n", 2)
  | .noSuchChoice value => (s!"error: invalid value '{value}'\n", 2)
  | .repeated option => (s!"error: the argument '{option}' cannot be used multiple times\n", 2)
  | .missingArgument name => (s!"error: the argument '{name}' was not provided\n", 2)

end PathAudit.Main

open PathAudit PathAudit.CommandLine PathAudit.Main in
def main (arguments : List String) : IO UInt32 := do
  match Invocation.ofArguments arguments with
  | .error refusal =>
    let (text, code) := refuse refusal
    if code = 0 then IO.print text else IO.eprint text
    return code
  | .ok invocation =>
    match ← perform invocation.command.act with
    | .ok passed => return if passed then 0 else 1
    | .error e =>
      IO.eprintln s!"pathguard: {e.message}"
      return 2
