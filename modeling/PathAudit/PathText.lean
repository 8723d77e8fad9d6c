/-! What can be told of a path by its text alone. -/

namespace PathAudit.Path

def isAbsolute (path : String) : Bool :=
  path.toList.head? == some '/'

/-- Holds of a path that asks to stay within the project root. -/
def isDotted (path : String) : Bool :=
  ['.', '/'].isPrefixOf path.toList || ['.', '.', '/'].isPrefixOf path.toList

/-- The characters that no path may hold, besides the control characters. -/
def forbidden : List Char := ['<', '>', ':', '"', '|', '?', '*']

def hasForbidden (path : String) : Bool :=
  path.toList.any fun c => forbidden.contains c || c.toNat ≤ 0x1F

theorem hasForbidden_iff {path : String} : hasForbidden path ↔
    ∃ c ∈ path.toList, c ∈ ['<', '>', ':', '"', '|', '?', '*'] ∨ c.toNat ≤ 0x1F := by
  simp [hasForbidden, forbidden]

/-- The text of `path` as seen from `base`. An absolute path stands for itself. -/
def join (base path : String) : String :=
  if isAbsolute path then path
  else if base.isEmpty || base.toList.getLast? == some '/' then base ++ path
  else base ++ "/" ++ path

end PathAudit.Path
