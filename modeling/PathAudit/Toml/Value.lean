import PathAudit.Text.Position

/-! TOML values, each with the bytes it was read from. -/

namespace PathAudit.Toml

/-- How a table came to be, which decides what may still be added to it. -/
inductive Origin
  /-- Named by a header of its own. -/
  | header
  /-- Named on the way to another table by a header. -/
  | implied
  /-- Named on the way to a value by a dotted key. -/
  | dotted
  /-- Written in braces. -/
  | braced
deriving DecidableEq, Repr

structure Key where
  name : String
  span : Text.Span
deriving DecidableEq, Repr

/-- A TOML value. A number with a fraction is infinite by name or because it overflows. An array
made by headers is told apart from one in brackets, for only headers add to it. -/
inductive Value
  | string (span : Text.Span) (text : String)
  | integer (span : Text.Span) (n : Int)
  | float (span : Text.Span) (x : Float) (overflows : Bool)
  | boolean (span : Text.Span) (b : Bool)
  | datetime (span : Text.Span)
  | array (span : Text.Span) (byHeaders : Bool) (elements : List Value)
  | table (span : Text.Span) (origin : Origin) (entries : List (Key × Value))
deriving Repr, Inhabited

def Value.span : Value → Text.Span
  | .string s _ => s
  | .integer s _ => s
  | .float s _ _ => s
  | .boolean s _ => s
  | .datetime s => s
  | .array s _ _ => s
  | .table s _ _ => s

abbrev Entries := List (Key × Value)

def Entries.entry? (entries : Entries) (name : String) : Option (Key × Value) :=
  entries.find? fun e => e.1.name == name

def Entries.valueAt? (entries : Entries) (name : String) : Option Value :=
  (entries.entry? name).map Prod.snd

/-- Puts an entry in the place of the one of its name, or else at the end. -/
def Entries.put (entries : Entries) (key : Key) (v : Value) : Entries :=
  if (entries.entry? key.name).isSome then
    entries.map fun e => if e.1.name == key.name then (key, v) else e
  else entries ++ [(key, v)]

end PathAudit.Toml
