/-! The configured severity of path findings and the category it gives them. -/

namespace PathAudit

inductive Category
  | warning
  | error
  | suggestion
  | message
deriving DecidableEq, Repr

namespace Category

def all : List Category := [.warning, .error, .suggestion, .message]

def name : Category → String
  | .warning => "warning"
  | .error => "error"
  | .suggestion => "suggestion"
  | .message => "message"

/-- The number by which hosts know a category. -/
def number : Category → Nat
  | .warning => 0
  | .error => 1
  | .suggestion => 2
  | .message => 3

end Category

/-- How severe path findings are. Switching them off suppresses none: they stay, as messages. -/
inductive Severity
  | error
  | warn
  | off
deriving DecidableEq, Repr

namespace Severity

def all : List Severity := [.error, .warn, .off]

def name : Severity → String
  | .error => "error"
  | .warn => "warn"
  | .off => "off"

def ofName? (name : String) : Option Severity :=
  all.find? (·.name == name)

def unknownMessage (name : String) : String :=
  s!"unknown severity '{name}' (expected: error, warn, off)"

def category : Severity → Category
  | .error => .error
  | .warn => .warning
  | .off => .message

@[simp] theorem ofName?_name (s : Severity) : ofName? s.name = some s := by
  cases s <;> decide

end Severity

end PathAudit
