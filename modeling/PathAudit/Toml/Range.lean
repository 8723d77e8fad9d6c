import PathAudit.Toml.Scalar

/-! Which values a reader can take in. A document may write numbers of any size, but no reader
holds them all. -/

namespace PathAudit.Toml

namespace Value

mutual

def all (holds : Value → Bool) : Value → Bool
  | array span byHeaders elements =>
    holds (array span byHeaders elements) && allElements holds elements
  | table span origin entries =>
    holds (table span origin entries) && allEntries holds entries
  | v => holds v

def allElements (holds : Value → Bool) : List Value → Bool
  | [] => true
  | v :: vs => all holds v && allElements holds vs

def allEntries (holds : Value → Bool) : List (Key × Value) → Bool
  | [] => true
  | (_, v) :: entries => all holds v && allEntries holds entries

end

/-- Holds of an integer that so many bits hold below zero and from zero on, of a number with a
fraction that does not overflow, and of all that is no number. -/
def numberFits (below above : Nat) : Value → Bool
  | integer _ n => decide (-((1 <<< below : Nat) : Int) ≤ n ∧ n < ((1 <<< above : Nat) : Int))
  | float _ _ overflows => !overflows
  | _ => true

/-- The key of a datetime where it is taken for a table. -/
def datetimeKey : String := "$__toml_private_datetime"

/-- Holds unless the least key of a table is that of a datetime and its value is no datetime. -/
def datetimeFits : Value → Bool
  | table _ _ entries =>
    match Entries.valueAt? entries datetimeKey with
    | some (string _ s) =>
      isDatetime s.toList || entries.any fun e => decide (e.1.name < datetimeKey)
    | some _ => entries.any fun e => decide (e.1.name < datetimeKey)
    | none => true
  | _ => true

/-- Holds of a value that can be passed over. The integers in it fit into 128 bits, with a sign or
without one. -/
def canPass (v : Value) : Bool := v.all (numberFits 127 128)

/-- Holds of a value that can be taken in as it is. The integers in it fit into 64 bits with a
sign. -/
def canHold (v : Value) : Bool := v.all fun v => v.numberFits 63 63 && v.datetimeFits

end Value

end PathAudit.Toml
