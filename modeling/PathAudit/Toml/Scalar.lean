import PathAudit.Decimal
import PathAudit.Toml.Value

/-! Scalars of TOML that are written without quotes: booleans, numbers, dates and times. -/

namespace PathAudit.Toml

def isScalarChar (c : Char) : Bool :=
  c.isAlphanum || c == '_' || c == '+' || c == '-' || c == '.' || c == ':'

/-- The digits of a number without the underscores between them. Each underscore must have a
digit on both sides, and there must be a digit. -/
def plainDigits? (isDigit : Char → Bool) (s : List Char) : Option (List Char) :=
  let groups := s.splitOn '_'
  if groups.all fun g => !g.isEmpty && g.all isDigit then some groups.flatten else none

def digitsValue (base : Nat) (digits : List Char) : Nat :=
  digits.foldl (fun n c =>
    n * base + (if c.isDigit then c.toNat - '0'.toNat else c.toLower.toNat - 'a'.toNat + 10)) 0

def splitSign : List Char → Bool × List Char
  | '-' :: r => (true, r)
  | '+' :: r => (false, r)
  | s => (false, s)

/-- The whole part of a decimal number: no zero leads other digits. -/
def wholeDigits? (s : List Char) : Option (List Char) := do
  let digits ← plainDigits? Char.isDigit s
  if digits.length > 1 ∧ digits.head? = some '0' then none else some digits

def integer? (s : List Char) : Option Int :=
  match s with
  | '0' :: 'x' :: r =>
    (plainDigits? (fun c => c.isDigit || ('a' ≤ c.toLower && c.toLower ≤ 'f')) r).map
      (digitsValue 16 ·)
  | '0' :: 'o' :: r => (plainDigits? (fun c => '0' ≤ c && c ≤ '7') r).map (digitsValue 8 ·)
  | '0' :: 'b' :: r => (plainDigits? (fun c => c == '0' || c == '1') r).map (digitsValue 2 ·)
  | _ => do
    let (negative, r) := splitSign s
    let n := digitsValue 10 (← wholeDigits? r)
    pure (if negative then -n else n)

def float? (span : Text.Span) (s : List Char) : Option Value := do
  let (negative, r) := splitSign s
  let signed := fun (x : Float) (overflows : Bool) =>
    Value.float span (if negative then -x else x) overflows
  if r = "inf".toList then return signed (1.0 / 0.0) false
  if r = "nan".toList then return signed (0.0 / 0.0) false
  let (mantissa, exponent) := r.span fun c => c != 'e' && c != 'E'
  let (whole, fraction) := mantissa.span (· != '.')
  let whole ← wholeDigits? whole
  let fraction ← match fraction with
    | [] => pure []
    | _ :: f => plainDigits? Char.isDigit f
  let power : Int ← match exponent with
    | [] => pure 0
    | _ :: e =>
      let (down, digits) := splitSign e
      (plainDigits? Char.isDigit digits).map fun d =>
        if down then -(digitsValue 10 d : Int) else digitsValue 10 d
  if exponent.isEmpty && !mantissa.contains '.' then none
  else
    let x := Decimal.toFloat ⟨digitsValue 10 (whole ++ fraction), power - fraction.length⟩
    pure (signed x x.isInf)

/-- The value of a number of so many digits that a text begins with, and the rest. -/
def fixedDigits? (count : Nat) (s : List Char) : Option (Nat × List Char) :=
  let digits := s.take count
  if digits.length = count ∧ digits.all Char.isDigit then some (digitsValue 10 digits, s.drop count)
  else none

def daysIn (year month : Nat) : Nat :=
  if month = 2 then
    if year % 4 = 0 ∧ (year % 100 ≠ 0 ∨ year % 400 = 0) then 29 else 28
  else if month = 4 ∨ month = 6 ∨ month = 9 ∨ month = 11 then 30
  else 31

def afterDate? (s : List Char) : Option (List Char) := do
  let (year, s) ← fixedDigits? 4 s
  let '-' :: s := s | none
  let (month, s) ← fixedDigits? 2 s
  let '-' :: s := s | none
  let (day, s) ← fixedDigits? 2 s
  if 1 ≤ month ∧ month ≤ 12 ∧ 1 ≤ day ∧ day ≤ daysIn year month then some s else none

/-- The text after the fraction of a second that it begins with, if it begins with one. -/
def afterFraction? : List Char → Option (List Char)
  | '.' :: s =>
    let digits := s.takeWhile Char.isDigit
    if digits.isEmpty then none else some (s.drop digits.length)
  | s => some s

/-- The text after the time that it begins with. The seconds may be left out. -/
def afterTime? (s : List Char) : Option (List Char) := do
  let (hour, s) ← fixedDigits? 2 s
  let ':' :: s := s | none
  let (minute, s) ← fixedDigits? 2 s
  if hour > 23 ∨ minute > 59 then none
  match s with
  | ':' :: s =>
    let (second, s) ← fixedDigits? 2 s
    if second > 60 then none else afterFraction? s
  | s => pure s

def isOffset : List Char → Bool
  | [] => true
  | ['Z'] => true
  | ['z'] => true
  | sign :: s => (sign == '+' || sign == '-') && (do
      let (hour, s) ← fixedDigits? 2 s
      let ':' :: s := s | none
      let (minute, s) ← fixedDigits? 2 s
      pure (hour ≤ 23 && minute ≤ 59 && s.isEmpty)) == some true

def isDatetime (s : List Char) : Bool :=
  match afterDate? s with
  | some [] => true
  | some (c :: r) =>
    (c == 'T' || c == 't' || c == ' ') && ((afterTime? r).map isOffset == some true)
  | none => afterTime? s == some []

def scalar? (span : Text.Span) (s : List Char) : Option Value :=
  if s = "true".toList then some (.boolean span true)
  else if s = "false".toList then some (.boolean span false)
  else if isDatetime s then some (.datetime span)
  else match integer? s with
    | some n => some (.integer span n)
    | none => float? span s

end PathAudit.Toml
