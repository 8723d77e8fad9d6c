import PathAudit.Config.Basic
import PathAudit.Json.Value

/-! Settings given by a host as a JSON value. Members that a host keeps there for itself are
passed over. -/

namespace PathAudit

structure HostSettings where
  severity : Option Severity
  strictKinds : Option Bool
deriving DecidableEq, Repr

namespace HostSettings

/-- Reads one member of the host's object. Strictness has two spellings, of which one may be
used. -/
def read (s : HostSettings) (member : String × Json) : Except DecodeError HostSettings := do
  if member.1 = "severity" then
    pure { s with severity := some (← member.2.toVariant Severity.all Severity.name) }
  else if member.1 = "strictKinds" ∨ member.1 = "strict_kinds" then
    if s.strictKinds.isSome then throw (.duplicateField "strictKinds")
    pure { s with strictKinds := some (← member.2.toBool) }
  else pure s

def config (s : HostSettings) : Config :=
  ⟨s.severity.getD Config.default.severity, s.strictKinds.getD Config.default.strictKinds⟩

end HostSettings

/-- Reads the settings of a host: an object, an array of the severity and the strictness, of
which the last may be missing, or null for the defaults. -/
def Config.ofJson (v : Json) : Except DecodeError Config := do
  match v with
  | .null => pure Config.default
  | .object members =>
    return (← (Json.sortMembers members).foldlM HostSettings.read ⟨none, none⟩).config
  | .array elements =>
    let severity ← elements[0]?.mapM (·.toVariant Severity.all Severity.name)
    let strictKinds ← elements[1]?.mapM (·.toBool)
    if elements.length > 2 then
      throw (.invalidLength elements.length "fewer elements in array")
    return HostSettings.config ⟨severity, strictKinds⟩
  | v => throw (.invalidType v.found "struct HostConfig")

end PathAudit
