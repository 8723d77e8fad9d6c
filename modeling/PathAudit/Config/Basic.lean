import PathAudit.Severity

/-! Settings of the checker. -/

namespace PathAudit

/-- How findings are reported, and whether an entry must be of the declared kind or only exist. -/
structure Config where
  severity : Severity
  strictKinds : Bool
deriving DecidableEq, Repr

def Config.default : Config := ⟨.error, false⟩

end PathAudit
