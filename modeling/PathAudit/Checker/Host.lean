import PathAudit.Checker.Basic
import PathAudit.Config.Host

/-! What a checker inside a host begins with: the host's settings and a project root. -/

namespace PathAudit

inductive HostError
  | config (cause : DecodeError)
  | root (cause : RootError)
deriving DecidableEq, Repr

def HostError.message : HostError → String
  | .config cause => "invalid plugin configuration: " ++ cause.message
  | .root cause => cause.message

/-- The checker for a host's settings. The project root is looked for from the host's project
directory, or from the working directory where the host has none. Settings are read first. -/
def Checker.ofHost (settings : Json) (projectDirectory : Option String) :
    Query (Except HostError Checker) := do
  match Config.ofJson settings with
  | .error e => pure (.error (.config e))
  | .ok config =>
    let root ← match projectDirectory with
      | some directory => ProjectRoot.find directory
      | none => ProjectRoot.current
    pure ((root.mapError .root).map (⟨config, ·⟩))

end PathAudit
