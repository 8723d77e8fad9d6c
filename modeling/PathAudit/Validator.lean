import PathAudit.Json.Value
import PathAudit.PathKind
import PathAudit.ProjectRoot
import PathAudit.Text.Blank

/-! Validation of a path at run time. A candidate must not be blank, must hold no forbidden
character, and must stay within the project root if it asks for that by beginning with `./` or
`../`. The checks run in this order and the first failure counts; only the last one may need the
working directory. The entry that the path names need not exist. -/

namespace PathAudit

/-- Why a candidate was refused. The message is the caller's or the kind's. -/
inductive ValidationError
  | blank (message : String)
  | forbiddenCharacters (message : String)
  | escapesRoot (message : String)
  | root (cause : RootError)
deriving DecidableEq, Repr

def ValidationError.message : ValidationError → String
  | .blank message => message
  | .forbiddenCharacters message => message ++ ": contains invalid characters"
  | .escapesRoot message => message ++ ": path escapes project root"
  | .root cause => cause.message

structure Validator where
  root : Option Location
deriving DecidableEq, Repr

namespace Validator

/-- The validator that looks for the project root of the working directory when it needs one. -/
def rootless : Validator := ⟨none⟩

def ofRoot (root : String) : Validator := ⟨some (Location.ofPath root)⟩

/-- The root that containment is judged by. -/
def containingRoot (v : Validator) : Query (Except RootError Location) :=
  match v.root with
  | some root => pure (.ok root)
  | none => ProjectRoot.current

/-- Validates a candidate. `message` takes the place of the kind's default message. An accepted
candidate is answered unchanged. -/
def validate (v : Validator) (kind : PathKind) (candidate : String) (message : Option String) :
    Query (Except ValidationError String) := do
  let message := message.getD kind.defaultMessage
  if (Text.trim candidate.toList).isEmpty then
    pure (.error (.blank message))
  else if Path.hasForbidden candidate then
    pure (.error (.forbiddenCharacters message))
  else if Path.isDotted candidate then
    match ← v.containingRoot with
    | .error e => pure (.error (.root e))
    | .ok root =>
      if (root.resolve candidate).startsWith root then pure (.ok candidate)
      else pure (.error (.escapesRoot message))
  else
    pure (.ok candidate)

/-- Validates a JSON value. Only a string can be a path. -/
def validateJson (v : Validator) (kind : PathKind) (value : Json) (message : Option String) :
    Query (Except ValidationError String) :=
  match value with
  | .string candidate => v.validate kind candidate message
  | _ => pure (.error (.blank (message.getD kind.defaultMessage)))

end Validator

end PathAudit
