import PathAudit.Text.Quoted

/-! Why a structured value, read from JSON or from a configuration file, has the wrong shape. -/

namespace PathAudit

/-- A fault in the shape of a value. What was found and what was expected are named in words. -/
inductive DecodeError
  | invalidType (found expected : String)
  | invalidValue (found expected : String)
  | invalidLength (length : Nat) (expected : String)
  | unknownVariant (name : String) (known : List String)
  | unknownField (name : String) (known : List String)
  | missingField (name : String)
  | duplicateField (name : String)
  | other (text : String)
deriving DecidableEq, Repr

namespace DecodeError

def oneOf (names : List String) : String :=
  let ticked := names.map fun n => s!"`{n}`"
  match ticked with
  | [a, b] => a ++ " or " ++ b
  | [a] => a
  | _ => "one of " ++ ", ".intercalate ticked

def message : DecodeError → String
  | invalidType found expected => s!"invalid type: {found}, expected {expected}"
  | invalidValue found expected => s!"invalid value: {found}, expected {expected}"
  | invalidLength length expected => s!"invalid length {length}, expected {expected}"
  | unknownVariant name known => s!"unknown variant `{name}`, expected {oneOf known}"
  | unknownField name known => s!"unknown field `{name}`, expected {oneOf known}"
  | missingField name => s!"missing field `{name}`"
  | duplicateField name => s!"duplicate field `{name}`"
  | other text => text

def foundInteger (n : Int) : String := s!"integer `{n}`"

def foundBoolean (b : Bool) : String := s!"boolean `{b}`"

def foundString (s : String) : String := "string " ++ Text.quoted s

def foundDecimal (text : String) : String := s!"floating point `{text}`"

end DecodeError

end PathAudit
