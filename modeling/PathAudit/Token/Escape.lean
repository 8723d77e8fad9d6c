/-! Escapes in quoted literals. A backslash and the character after it stand for a control
character, for nothing (before a newline), for the character that a hexadecimal payload
denotes (after `x` and `u`), or for that character itself. -/

namespace PathAudit.Token

def hexDigit? (c : Char) : Option Nat :=
  if c.isDigit then some (c.toNat - '0'.toNat)
  else if 'a' ≤ c ∧ c ≤ 'f' then some (c.toNat - 'a'.toNat + 10)
  else if 'A' ≤ c ∧ c ≤ 'F' then some (c.toNat - 'A'.toNat + 10)
  else none

/-- The value of a non-empty run of hexadecimal digits, which a plus sign may precede. -/
def hexValue? (payload : List Char) : Option Nat :=
  let digits := match payload with
    | '+' :: r => r
    | s => s
  if digits.isEmpty then none
  else digits.foldlM (fun n c => (hexDigit? c).map (16 * n + ·)) 0

/-- The character that a payload denotes: the replacement character U+FFFD when the payload is
no hexadecimal number or the number is no character's. -/
def payloadChar (payload : List Char) : Char :=
  match hexValue? payload with
  | some n => if n.isValidChar then Char.ofNat n else '\uFFFD'
  | none => '\uFFFD'

/-- What an escape contributes to the value of its literal, and how many characters after the
escaped one belong to it. -/
structure Escape where
  meaning : List Char
  payload : Nat
deriving DecidableEq, Repr

/-- The escape of `c`, which `rest` follows in the literal. The payload in braces runs up to the
closing brace or to the end of the literal. -/
def escape (c : Char) (rest : List Char) : Escape :=
  match c with
  | 'n' => ⟨['\n'], 0⟩
  | 't' => ⟨['\t'], 0⟩
  | 'r' => ⟨['\r'], 0⟩
  | 'b' => ⟨['\x08'], 0⟩
  | 'f' => ⟨['\x0c'], 0⟩
  | 'v' => ⟨['\x0b'], 0⟩
  | '0' => ⟨['\x00'], 0⟩
  | '\n' => ⟨[], 0⟩
  | 'x' => ⟨[payloadChar (rest.take 2)], 2⟩
  | 'u' =>
    match rest with
    | '\x7b' :: r =>
      let payload := r.takeWhile (· != '\x7d')
      ⟨[payloadChar payload], payload.length + 2⟩
    | _ => ⟨[payloadChar (rest.take 4)], 4⟩
  | _ => ⟨[c], 0⟩

/-- The value of a literal whose body, the text between its quotes, is given. -/
def literalValue : List Char → List Char
  | [] => []
  | '\\' :: c :: r =>
    let e := escape c r
    e.meaning ++ literalValue (r.drop e.payload)
  | '\\' :: [] => []
  | c :: r => c :: literalValue r
termination_by body => body.length

end PathAudit.Token
