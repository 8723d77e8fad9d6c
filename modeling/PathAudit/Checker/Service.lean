import PathAudit.Checker.Basic

/-! Language services: what a host can ask about the sources that it edits. A service of sources
in memory finds what is no token in them; adding path checks to a service appends their findings
to its semantic ones and leaves all else to it. -/

namespace PathAudit

/-- What a host can ask. There may be no sources yet. -/
structure Service where
  sources : Option SourceSet
  names : List String
  syntactic : String → List Diagnostic
  semantic : String → Query (List Diagnostic)

namespace Service

def syntaxCode : Nat := 1002

def syntaxFinding (source : String) (e : Unrecognized) : Diagnostic where
  category := .error
  code := syntaxCode
  message := e.message
  fileName := some source
  extent := some (Extent.ofSpan e.span)

def ofSources (p : SourceSet) : Service where
  sources := some p
  names := p.names
  syntactic name := match p.get? name with
    | some s => s.errors.map (syntaxFinding name)
    | none => []
  semantic _ := pure []

def pathFindings (s : Service) (checker : Checker) (name : String) : Query (List Diagnostic) :=
  match s.sources.bind (·.get? name) with
  | some source => checker.findingsIn source
  | none => pure []

/-- The service with path findings after its own semantic ones. -/
def withPathChecks (s : Service) (checker : Checker) : Service :=
  { s with semantic := fun name => do
      pure ((← s.semantic name) ++ (← s.pathFindings checker name)) }

end Service

end PathAudit
