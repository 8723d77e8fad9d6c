import PathAudit.Cases.Format
import PathAudit.Cases.Summary
import PathAudit.Checker.Basic
import PathAudit.Disk.Change

/-! Running checker cases. Each case has a project of its own, a folder that holds a marker and the
fixtures of the case. No path of the case goes through the name of that folder, as none could know
it. -/

namespace PathAudit.Case

def config (c : Case) : Except String Config :=
  match c.severity with
  | none => .ok ⟨Config.default.severity, c.strictKinds⟩
  | some name =>
    match Severity.ofName? name with
    | some severity => .ok ⟨severity, c.strictKinds⟩
    | none => .error (Severity.unknownMessage name)

def source (c : Case) : Source := ⟨c.name ++ ".ts", c.input⟩

/-- The names that the paths of a case go through. -/
def mentioned (c : Case) : List String :=
  (c.fixtures ++ c.source.outline.pathDeclarations.map (·.value)).flatMap Tree.parts

/-- The name of the project's folder: one that no path of the case goes through. -/
def projectName (c : Case) : String :=
  let taken := c.mentioned
  let names := (List.range (taken.length + 1)).map fun n => s!"project{n}"
  (names.find? (!taken.contains ·)).getD "project"

def bareProject (name : String) : Node :=
  .folder [(name, .folder [("package.json", .file "\x7b\x7d".toUTF8)])]

/-- Makes a fixture of the project at `root`: a folder if its name ends in a slash, else an empty
file, and the folders above it. -/
def makeFixture (root fixture : String) : Change Unit := do
  let path := Path.join root fixture
  if fixture.toList.getLast? = some '/' then Change.makeFolder path
  else
    Change.makeFolder (Change.above path)
    Change.writeFile path ByteArray.empty

def run (c : Case) : CaseResult :=
  match c.config with
  | .error message => .error message
  | .ok config =>
    let root := "/" ++ c.projectName
    match (c.fixtures.forM (makeFixture root)).run.run (bareProject c.projectName) with
    | (.error e, _) => .error ("fixtures: " ++ e.message)
    | (.ok _, tree) =>
      let query := (Checker.ofRoot config root).findingsIn c.source
      let actual := (query.answer (Tree.disk tree (some [c.projectName]))).map fun d =>
        s!"{d.category.name}: {d.message}"
      if actual = c.expected then .pass
      else .fail ("\n".intercalate c.expected) ("\n".intercalate actual)

def runAll (cases : List Case) : Summary :=
  cases.foldl (fun s c => s.add c.name c.line c.run) Summary.empty

end PathAudit.Case
