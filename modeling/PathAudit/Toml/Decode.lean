import PathAudit.Decimal
import PathAudit.DecodeError
import PathAudit.Toml.Value

/-! Decoding of TOML values. A fault carries the bytes that it concerns, and its report shows
their line. -/

namespace PathAudit.Toml

structure Fault where
  span : Text.Span
  error : DecodeError
deriving DecidableEq, Repr

/-- The report of a fault: its place, its line of the document with a caret for each byte that it
concerns, and its text. There is a caret at least, and there are no more than the bytes of the line
less the characters before the fault. -/
def Fault.report (f : Fault) (text : String) : String :=
  let place := (Text.lineColumn? text.toList f.span.start).getD ⟨1, 1⟩
  let line := ((text.toList.splitOn '\n')[place.line - 1]?).getD []
  let number := toString place.line
  let margin := "".pushn ' ' (number.length + 1) ++ "|"
  let covered := min (f.span.stop - f.span.start) (Text.byteLength line - (place.column - 1))
  s!"TOML parse error at line {number}, column {place.column}\n" ++
    margin ++ "\n" ++
    number ++ " | " ++ String.ofList line ++ "\n" ++
    margin ++ "".pushn ' ' place.column ++ "".pushn '^' (max 1 covered) ++ "\n" ++
    f.error.message ++ "\n"

namespace Value

def decimalStyle : Decimal.Style := ⟨none, none⟩

def found : Value → String
  | string _ s => DecodeError.foundString s
  | integer _ n => DecodeError.foundInteger n
  | float _ x _ => DecodeError.foundDecimal (Decimal.ofFloat decimalStyle x)
  | boolean _ b => DecodeError.foundBoolean b
  | datetime _ => "map"
  | array _ _ _ => "sequence"
  | table _ _ _ => "map"

def typeName : Value → String
  | string _ _ => "string"
  | integer _ _ => "integer"
  | float _ _ _ => "float"
  | boolean _ _ => "boolean"
  | datetime _ => "datetime"
  | array _ _ _ => "array"
  | table _ _ _ => "table"

def toBool : Value → Except Fault Bool
  | boolean _ b => .ok b
  | v => .error ⟨v.span, .invalidType v.found "a boolean"⟩

/-- Reads one of some named values: its name, or a table whose only key is its name and whose
value is empty. -/
def toVariant {α : Type} (known : List α) (name : α → String) (v : Value) : Except Fault α :=
  let named := fun (s : String) (span : Text.Span) =>
    match known.find? (name · == s) with
    | some a => .ok a
    | none => .error ⟨span, .unknownVariant s (known.map name)⟩
  match v with
  | string span s => named s span
  | table _ _ [(key, content)] => do
    let a ← named key.name key.span
    match content with
    | table _ _ [] => pure a
    | table span _ _ => .error ⟨span, .other "expected empty table"⟩
    | array _ _ [] => pure a
    | array span _ _ => .error ⟨span, .other "expected empty array"⟩
    | v => .error ⟨v.span, .other s!"expected table, found {v.typeName}"⟩
  | table span _ [] => .error ⟨span, .other "wanted exactly 1 element, found 0 elements"⟩
  | table span _ _ => .error ⟨span, .other "wanted exactly 1 element, more than 1 element"⟩
  | v => .error ⟨v.span, .other "wanted string or table"⟩

end Value

end PathAudit.Toml
