import PathAudit.Decimal
import PathAudit.DecodeError

/-! JSON values and their decoding. The members of an object are decoded in the order of their
keys, so that of two faults the one under the smaller key is reported. -/

namespace PathAudit

/-- A JSON value. An integer is a number written without fraction and exponent that 64 bits can
hold; an object has each key once. -/
inductive Json
  | null
  | boolean (b : Bool)
  | integer (n : Int)
  | decimal (x : Float)
  | string (s : String)
  | array (elements : List Json)
  | object (members : List (String × Json))
deriving Repr, Inhabited

namespace Json

/-- Numbers are written with an exponent from 10¹⁶ upwards and below 10⁻⁵. -/
def decimalStyle : Decimal.Style := ⟨some 16, some 4⟩

def found : Json → String
  | null => "null"
  | boolean b => DecodeError.foundBoolean b
  | integer n => DecodeError.foundInteger n
  | decimal x => DecodeError.foundDecimal (Decimal.ofFloat decimalStyle x)
  | string s => DecodeError.foundString s
  | array _ => "sequence"
  | object _ => "map"

def sortMembers (members : List (String × Json)) : List (String × Json) :=
  members.mergeSort fun a b => decide (a.1 ≤ b.1)

def toBool : Json → Except DecodeError Bool
  | boolean b => .ok b
  | v => .error (.invalidType v.found "a boolean")

def toText : Json → Except DecodeError String
  | string s => .ok s
  | v => .error (.invalidType v.found "a string")

/-- Reads a whole number below `bound`; `expected` names the type. -/
def toNat (bound : Nat) (expected : String) : Json → Except DecodeError Nat
  | integer n =>
    if 0 ≤ n ∧ n < bound then .ok n.toNat
    else .error (.invalidValue (DecodeError.foundInteger n) expected)
  | v => .error (.invalidType v.found expected)

def toOption {α : Type} (read : Json → Except DecodeError α) : Json → Except DecodeError (Option α)
  | null => .ok none
  | v => (read v).map some

/-- Reads one of some named values: its name, or an object whose only key is its name and whose
member is null. -/
def toVariant {α : Type} (known : List α) (name : α → String) (v : Json) :
    Except DecodeError α :=
  let named := fun (s : String) =>
    match known.find? (name · == s) with
    | some a => .ok a
    | none => .error (.unknownVariant s (known.map name))
  match v with
  | string s => named s
  | object [(s, content)] => do
    let a ← named s
    match content with
    | null => pure a
    | v => .error (.invalidType v.found "unit")
  | object _ => .error (.invalidValue "map" "map with a single key")
  | v => .error (.invalidType v.found "string or map")

end Json

end PathAudit
