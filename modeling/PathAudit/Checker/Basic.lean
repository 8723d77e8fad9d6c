import PathAudit.Config.Basic
import PathAudit.Declaration
import PathAudit.Diagnostic
import PathAudit.Location.Relative
import PathAudit.ProjectRoot
import PathAudit.SourceSet

/-! The static check of path declarations. A literal must hold no forbidden character, lead to a
location within the project root, and name an entry that exists, of the declared kind where that
is asked for. Every failure is reported by the same message. -/

namespace PathAudit

inductive Rejection
  | forbiddenCharacters
  | escapesRoot
  | missing
  | wrongKind
deriving DecidableEq, Repr

def PathKind.admits : PathKind → EntryKind → Bool
  | .file, entry => entry == .file
  | .folder, entry => entry == .folder
  | .any, _ => true

structure Checker where
  config : Config
  root : Location
deriving DecidableEq, Repr

namespace Checker

def code : Nat := 9999

def ofRoot (config : Config) (root : String) : Checker :=
  ⟨config, Location.ofPath root⟩

/-- The checker of the working directory's project root. -/
def ofWorkingDirectory (config : Config) : Query (Except RootError Checker) := do
  pure ((← ProjectRoot.current).map (⟨config, ·⟩))

/-- Judges one literal: where it leads, or why it is rejected. -/
def verdict (c : Checker) (kind : PathKind) (value : String) :
    Query (Except Rejection Location) := do
  if Path.hasForbidden value then pure (.error .forbiddenCharacters)
  else
    let target := c.root.resolve value
    if !target.within c.root then pure (.error .escapesRoot)
    else match ← Query.entryAt target.toPath with
      | none => pure (.error .missing)
      | some entry =>
        if c.config.strictKinds && !kind.admits entry then pure (.error .wrongKind)
        else pure (.ok target)

def finding (c : Checker) (source : String) (d : PathDeclaration) : Diagnostic where
  category := c.config.severity.category
  code := code
  message := s!"Invalid path: \"{d.value}\" does not exist or is not accessible"
  fileName := some source
  extent := some (Extent.ofSpan d.span)

def findings (c : Checker) (source : String) : List PathDeclaration → Query (List Diagnostic)
  | [] => pure []
  | d :: ds => do
    match ← c.verdict d.kind d.value with
    | .ok _ => c.findings source ds
    | .error _ => do pure (c.finding source d :: (← c.findings source ds))

def findingsIn (c : Checker) (s : Source) : Query (List Diagnostic) :=
  c.findings s.name s.outline.pathDeclarations

def findingsInEach (c : Checker) : List Source → Query (List Diagnostic)
  | [] => pure []
  | s :: more => do pure ((← c.findingsIn s) ++ (← c.findingsInEach more))

def findingsInAll (c : Checker) (p : SourceSet) : Query (List Diagnostic) :=
  c.findingsInEach p.sources

end Checker

end PathAudit
