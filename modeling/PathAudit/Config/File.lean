import PathAudit.Config.Basic
import PathAudit.Disk.Basic
import PathAudit.Toml.Decode
import PathAudit.Toml.Parser
import PathAudit.Toml.Range

/-! The configuration file of a project: the table `pathguard` of `pathguard.toml` at the project
root. Unlike a host's object it may hold nothing that is no setting. -/

namespace PathAudit

inductive ConfigFault
  /-- The text is no TOML, or holds a number that is out of range. -/
  | notToml
  /-- The text is TOML of the wrong shape; the report tells where. -/
  | shape (report : String)
deriving DecidableEq, Repr

def ConfigFault.message : ConfigFault → String
  | .notToml => "TOML parse error\n"
  | .shape report => report

inductive ConfigError
  | unreadable (path : String) (cause : DiskError)
  | unparsable (path : String) (cause : ConfigFault)
deriving DecidableEq, Repr

def ConfigError.cause : ConfigError → String
  | .unreadable _ cause => cause.message
  | .unparsable _ cause => cause.message

def ConfigError.message : ConfigError → String
  | .unreadable path cause => s!"failed to read '{path}': {cause.message}"
  | .unparsable path cause => s!"failed to parse '{path}': {cause.message}"

namespace Config

def fileName : String := "pathguard.toml"

def readEntry (c : Config) (entry : Toml.Key × Toml.Value) : Except Toml.Fault Config := do
  let (key, v) := entry
  if key.name = "severity" then
    pure { c with severity := ← v.toVariant Severity.all Severity.name }
  else if key.name = "strict_kinds" then
    pure { c with strictKinds := ← v.toBool }
  else throw ⟨key.span, .unknownField key.name ["severity", "strict_kinds"]⟩

/-- Reads the settings from a TOML value: a table, whose entries are read by ascending key, or an
array that begins with the severity and the strictness, of which the last may be missing. -/
def ofToml (v : Toml.Value) : Except Toml.Fault Config := do
  match v with
  | .table _ _ entries =>
    (entries.mergeSort fun a b => decide (a.1.name ≤ b.1.name)).foldlM readEntry Config.default
  | .array _ _ elements =>
    let severity ← elements[0]?.mapM (·.toVariant Severity.all Severity.name)
    let strictKinds ← elements[1]?.mapM (·.toBool)
    pure ⟨severity.getD Config.default.severity, strictKinds.getD Config.default.strictKinds⟩
  | .datetime span =>
    -- A datetime is decoded as a table with one key of its own.
    throw ⟨span, .unknownField Toml.Value.datetimeKey ["severity", "strict_kinds"]⟩
  | v => throw ⟨v.span, .invalidType v.found "struct CheckerConfig"⟩

def tableName : String := "pathguard"

/-- Reads the text of a configuration file. What lies outside the settings must be fit to be passed
over. A fault in the shape of the settings is told only of a document that can be taken in as a
whole. -/
def ofFileText (text : String) : Except ConfigFault Config := do
  let some entries := Toml.Entries.ofText? text | throw .notToml
  let settings := ((entries.valueAt? tableName).mapM ofToml).mapError fun f =>
    if entries.all (·.2.canHold) then .shape (f.report text) else .notToml
  if entries.all fun e => e.1.name == tableName || e.2.canPass then
    return (← settings).getD Config.default
  else throw .notToml

/-- Loads the settings of a project. A project without a configuration file has the defaults. -/
def load (root : String) : Query (Except ConfigError Config) := do
  let path := Path.join root fileName
  match ← Query.textAt path with
  | .error .notFound => pure (.ok Config.default)
  | .error e => pure (.error (.unreadable path e))
  | .ok text => pure ((ofFileText text).mapError (.unparsable path))

end Config

end PathAudit
