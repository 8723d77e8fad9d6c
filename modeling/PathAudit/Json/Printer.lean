import PathAudit.Json.Value

/-! The text of JSON values over several lines, each level moved in by two blanks. -/

namespace PathAudit.Json

/-- One character inside a string. Only the quote, the backslash and control characters are
escaped. -/
def stringChar (c : Char) : List Char :=
  match c with
  | '"' => ['\\', '"']
  | '\\' => ['\\', '\\']
  | '\n' => ['\\', 'n']
  | '\r' => ['\\', 'r']
  | '\t' => ['\\', 't']
  | '\x08' => ['\\', 'b']
  | '\x0c' => ['\\', 'f']
  | c =>
    if c.toNat < 0x20 then
      let digits := Nat.toDigits 16 c.toNat
      '\\' :: 'u' :: List.replicate (4 - digits.length) '0' ++ digits
    else [c]

def stringText (s : String) : String :=
  String.ofList ('"' :: s.toList.flatMap stringChar ++ ['"'])

def lineStart (level : Nat) : String :=
  "\n".pushn ' ' (2 * level)

mutual

/-- The text of a value whose first line stands at a level. -/
def pretty (level : Nat) : Json → String
  | null => "null"
  | boolean b => toString b
  | integer n => toString n
  | decimal x => Decimal.ofFloat decimalStyle x
  | string s => stringText s
  | array [] => "[]"
  | array (v :: vs) =>
    "[" ++ lineStart (level + 1) ++ pretty (level + 1) v ++ prettyElements (level + 1) vs ++
      lineStart level ++ "]"
  | object [] => "\x7b\x7d"
  | object ((k, v) :: ms) =>
    "\x7b" ++ lineStart (level + 1) ++ stringText k ++ ": " ++ pretty (level + 1) v ++
      prettyMembers (level + 1) ms ++ lineStart level ++ "\x7d"

def prettyElements (level : Nat) : List Json → String
  | [] => ""
  | v :: vs => "," ++ lineStart level ++ pretty level v ++ prettyElements level vs

def prettyMembers (level : Nat) : List (String × Json) → String
  | [] => ""
  | (k, v) :: ms =>
    "," ++ lineStart level ++ stringText k ++ ": " ++ pretty level v ++ prettyMembers level ms

end

end PathAudit.Json
