import PathAudit.Text.Blank
import PathAudit.Token.Basic
import PathAudit.Token.Escape

/-! Reading a source text into tokens. The text is cut into lexemes from left to right, and each
lexeme is the longest run that one of the patterns admits: a run of skipped characters, a
comment, a token. A white space character outside the skipped ones is an error of its own and
hides nothing around it. A literal or a comment that is never closed is none, and its first
character is a token by itself. -/

namespace PathAudit

inductive LexemeKind
  | skipped
  | comment
  | token (t : Token)
  | unknown
deriving DecidableEq, Repr

/-- A piece of the source, with the characters it is made of. -/
structure Lexeme where
  kind : LexemeKind
  text : List Char
deriving DecidableEq, Repr

namespace Lexeme

/-- The characters that separate tokens and mean nothing else. -/
def isSkipped (c : Char) : Bool :=
  c == ' ' || c == '\t' || c == '\r' || c == '\n' || c == '\x0c' || c == '\ufeff'

def isNameStart (c : Char) : Bool :=
  c.isAlpha || c == '_' || c == '$'

def isNamePart (c : Char) : Bool :=
  isNameStart c || c.isDigit

def isDigitPart (c : Char) : Bool :=
  c.isDigit || c == '_'

/-- The number of characters up to and with the quote `q` that closes a literal, if one does. A
backslash takes the next character into the literal, whatever it is; else a newline ends the
search unless the literal may hold it. -/
def closing (q : Char) (multiline : Bool) : List Char → Option Nat
  | [] => none
  | '\\' :: [] => none
  | '\\' :: _ :: r => (closing q multiline r).map (· + 2)
  | c :: r =>
    if c = q then some 1
    else if c = '\n' && !multiline then none
    else (closing q multiline r).map (· + 1)

def commentClosing : List Char → Option Nat
  | [] => none
  | '*' :: '/' :: _ => some 2
  | _ :: r => (commentClosing r).map (· + 1)

def fractionLength : List Char → Nat
  | '.' :: r => match (r.takeWhile isDigitPart).length with
    | 0 => 0
    | n => n + 1
  | _ => 0

def exponentLength : List Char → Nat
  | e :: r =>
    if e = 'e' ∨ e = 'E' then
      let sign := match r with
        | '+' :: _ => 1
        | '-' :: _ => 1
        | _ => 0
      match ((r.drop sign).takeWhile Char.isDigit).length with
      | 0 => 0
      | n => 1 + sign + n
    else 0
  | [] => 0

/-- The number of characters by which a number goes on after its first digit. -/
def numberLength (r : List Char) : Nat :=
  let whole := (r.takeWhile isDigitPart).length
  let fraction := fractionLength (r.drop whole)
  whole + fraction + exponentLength (r.drop (whole + fraction))

def ofWord (word : String) : Token :=
  match Keyword.ofText? word with
  | some k => .keyword k
  | none => .identifier word

/-- The kind of the lexeme that begins with `c`, which `r` follows, and the number of characters
of `r` that belong to it. -/
def classify (c : Char) (r : List Char) : LexemeKind × Nat :=
  if isSkipped c then (.skipped, (r.takeWhile isSkipped).length)
  else if c.isDigit then (.token .number, numberLength r)
  else if isNameStart c then
    let tail := r.takeWhile isNamePart
    (.token (ofWord (String.ofList (c :: tail))), tail.length)
  else if c = '"' ∨ c = '\'' then
    match closing c false r with
    | some n => (.token (.string (String.ofList (Token.literalValue (r.take (n - 1))))), n)
    | none => (.token (.other c), 0)
  else if c = '\x60' then
    match closing c true r with
    | some n => (.token .template, n)
    | none => (.token (.other c), 0)
  else
    match c, r with
    | '/', '/' :: r => (.comment, 1 + (r.takeWhile (· != '\n')).length)
    | '/', '*' :: r =>
      match commentClosing r with
      | some n => (.comment, 1 + n)
      | none => (.token (.other '/'), 0)
    | '=', '>' :: _ => (.token (.punctuation .arrow), 1)
    | _, _ =>
      match Punctuation.ofChar? c with
      | some mark => (.token (.punctuation mark), 0)
      | none => if Text.isBlank c then (.unknown, 0) else (.token (.other c), 0)

def ofText : List Char → List Lexeme
  | [] => []
  | c :: r =>
    let (kind, n) := classify c r
    ⟨kind, c :: r.take n⟩ :: ofText (r.drop n)
termination_by s => s.length

/-- The lexemes with the bytes they cover, the first of them at offset `start`. -/
def place (start : Nat) : List Lexeme → List (LexemeKind × List Char × Text.Span)
  | [] => []
  | l :: ls =>
    let stop := start + Text.byteLength l.text
    (l.kind, l.text, ⟨start, stop⟩) :: place stop ls

/-- Nothing is lost and nothing is added by cutting a text into lexemes. -/
theorem flatMap_text_ofText (s : List Char) : (ofText s).flatMap text = s := by
  fun_induction ofText s with
  | case1 => rfl
  | case2 c r kind n _ ih => simp [ih]

end Lexeme

structure Scan where
  tokens : List PlacedToken
  errors : List Unrecognized
deriving DecidableEq, Repr

def Scan.ofText (source : String) : Scan :=
  let lexemes := Lexeme.place 0 (Lexeme.ofText source.toList)
  { tokens := lexemes.filterMap fun
      | (.token t, _, span) => some ⟨t, span⟩
      | _ => none
    errors := lexemes.filterMap fun
      | (.unknown, text, span) => some ⟨span, String.ofList text⟩
      | _ => none }

end PathAudit
