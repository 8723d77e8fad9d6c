import PathAudit.Disk.Basic

/-! Project roots. The root of a project is the nearest directory, from a start upwards, with one
of the marker entries directly below it. It is looked for anew each time. -/

namespace PathAudit

namespace ProjectRoot

/-- The entries that mark a project root, in the order in which they are looked for. -/
def markers : List String :=
  [".git", "package.json", "yarn.lock", "pnpm-lock.yaml", "package-lock.json", "lerna.json",
    "nx.json", "workspace.json"]

end ProjectRoot

inductive RootError
  /-- No directory from the start upwards has a marker. -/
  | notFound (start : Location)
  /-- The start could not be made absolute. -/
  | currentDirectory (cause : DiskError)
deriving DecidableEq, Repr

def RootError.message : RootError → String
  | .notFound start =>
    s!"project root not found (searched from '{start.toPath}'): run inside a project directory " ++
      "containing one of " ++ ", ".intercalate ProjectRoot.markers
  | .currentDirectory cause => "cannot determine current directory: " ++ cause.message

namespace ProjectRoot

/-- Whether one of some entries exists below a directory. They are looked for in order, up to
the first that exists. -/
def holdsAny (directory : Location) : List String → Query Bool
  | [] => pure false
  | name :: names => do
    if (← Query.entryAt (directory.child name).toPath).isSome then pure true
    else holdsAny directory names

def firstMarked : List Location → Query (Option Location)
  | [] => pure none
  | directory :: more => do
    if ← holdsAny directory markers then pure (some directory) else firstMarked more

def above (start : Location) : Query (Except RootError Location) := do
  match ← firstMarked start.ancestors with
  | some root => pure (.ok root)
  | none => pure (.error (.notFound start))

def find (start : String) : Query (Except RootError Location) := do
  match ← Query.locate start with
  | .error e => pure (.error (.currentDirectory e))
  | .ok l => above l

def current : Query (Except RootError Location) := do
  match ← Query.workingDirectory Query.done with
  | .error e => pure (.error (.currentDirectory e))
  | .ok l => above l

end ProjectRoot

end PathAudit
