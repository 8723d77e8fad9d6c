import PathAudit.Token.Escape
import PathAudit.Toml.Document
import PathAudit.Toml.Scalar

/-! Reading TOML text. Only what is wrong with a document as a whole is told, namely that it is no
TOML, not where. -/

namespace PathAudit.Toml

structure Cursor where
  rest : List Char
  offset : Nat

/-- A reader that takes some text from the cursor, or fails. -/
abbrev Reader := StateT Cursor Option

namespace Reader

def offset : Reader Nat := do return (← get).offset

def rest : Reader (List Char) := do return (← get).rest

def take (n : Nat) : Reader (List Char) :=
  modifyGet fun c =>
    let taken := c.rest.take n
    (taken, ⟨c.rest.drop n, c.offset + Text.byteLength taken⟩)

def takeWhile (fits : Char → Bool) : Reader (List Char) := do
  take ((← rest).takeWhile fits).length

/-- Takes this text if it is next. -/
def accept (text : List Char) : Reader Bool := do
  if text.isPrefixOf (← rest) then
    let _ ← take text.length
    return true
  else return false

def expect (text : List Char) : Reader Unit := do
  if ← accept text then return () else failure

def spanned {α : Type} (read : Reader α) : Reader (α × Text.Span) := do
  let start ← offset
  let a ← read
  return (a, ⟨start, ← offset⟩)

/-- Holds of a character that a comment or a string on one line may hold. -/
def isPlain (c : Char) : Bool :=
  c == '\t' || (' ' ≤ c && c != '\x7f')

def blanks : Reader Unit := do
  let _ ← takeWhile fun c => c == ' ' || c == '\t'

/-- Takes the end of a line if it is next, and nothing otherwise. -/
def newline : Reader (List Char) := do
  if ← accept ['\n'] then return ['\n']
  if ← accept ['\r', '\n'] then return ['\r', '\n'] else return []

def blanksAndComment : Reader Unit := do
  blanks
  if ← accept ['#'] then
    let _ ← takeWhile isPlain

/-- Takes blanks, comments and newlines, on at most so many lines. -/
def trivia : Nat → Reader Unit
  | 0 => pure ()
  | lines + 1 => do
    blanksAndComment
    if !(← newline).isEmpty then trivia lines

def endOfLine : Reader Unit := do
  blanksAndComment
  if (← newline).isEmpty && !(← rest).isEmpty then failure

def codePoint (digits : Nat) : Reader Char := do
  let payload ← take digits
  if payload.length = digits ∧ payload.all (Token.hexDigit? · |>.isSome) then
    let n := digitsValue 16 payload
    if n.isValidChar then return Char.ofNat n else failure
  else failure

def gap : Nat → Reader Unit
  | 0 => pure ()
  | lines + 1 => do
    blanks
    if !(← newline).isEmpty then gap lines

/-- Takes what follows a backslash. A line end stands for nothing, together with the blanks before
it and the blanks and line ends after it, where a string may have more lines than one. -/
def escape (multiline : Bool) : Reader (List Char) := do
  let next ← rest
  if multiline && next.head?.any (fun c => c == ' ' || c == '\t' || c == '\r' || c == '\n') then
    blanks
    if (← newline).isEmpty then failure
    gap next.length
    return []
  else
    match ← take 1 with
    | ['b'] => return ['\x08']
    | ['t'] => return ['\t']
    | ['n'] => return ['\n']
    | ['f'] => return ['\x0c']
    | ['r'] => return ['\r']
    | ['e'] => return ['\x1b']
    | ['"'] => return ['"']
    | ['\\'] => return ['\\']
    | ['x'] => return [← codePoint 2]
    | ['u'] => return [← codePoint 4]
    | ['U'] => return [← codePoint 8]
    | _ => failure

/-- Takes the text of a string after its opening quotes, and the closing ones. In a string of more
lines than one, ends of lines stay as they are written, and up to two quotes may stand before the
closing three. -/
def body (quote : Char) (escapes multiline : Bool) : Nat → Reader (List Char)
  | 0 => failure
  | fuel + 1 => do
    let quotes := ((← rest).takeWhile (· == quote)).length
    if !multiline && quotes > 0 then
      let _ ← take 1
      return []
    else if quotes ≥ 3 then
      let taken ← take (min quotes 5)
      return taken.drop 3
    else if quotes > 0 then
      return (← take quotes) ++ (← body quote escapes multiline fuel)
    else
      let ending ← if multiline then newline else pure []
      if !ending.isEmpty then return ending ++ (← body quote escapes multiline fuel)
      match ← take 1 with
      | ['\\'] =>
        let meaning ← if escapes then escape multiline else pure ['\\']
        return meaning ++ (← body quote escapes multiline fuel)
      | [c] => if isPlain c then return c :: (← body quote escapes multiline fuel) else failure
      | _ => failure

def line? (quote : Char) (escapes : Bool) : Reader (Option String) := do
  if ← accept [quote] then
    return some (String.ofList (← body quote escapes false ((← rest).length + 1)))
  else return none

/-- Takes a string of several lines, if its opening quotes are next. A newline right after them
does not belong to it. -/
def lines? (quote : Char) (escapes : Bool) : Reader (Option String) := do
  if ← accept [quote, quote, quote] then
    let _ ← newline
    return some (String.ofList (← body quote escapes true ((← rest).length + 1)))
  else return none

def key : Reader Key := do
  let (name, span) ← spanned do
    if let some s ← line? '"' true then return s
    if let some s ← line? '\'' false then return s
    let bare ← takeWhile fun c => c.isAlphanum || c == '_' || c == '-'
    if bare.isEmpty then failure else return String.ofList bare
  return ⟨name, span⟩

/-- Takes what follows a part of a dotted key that has at most so many parts from that one on:
the way and the last part. -/
def dotted : Nat → Key → Reader (List Key × Key)
  | 0, _ => failure
  | parts + 1, first => do
    blanks
    if ← accept ['.'] then
      blanks
      let (way, last) ← dotted parts (← key)
      return (first :: way, last)
    else return ([], first)

/-- How deep arrays and tables in braces may nest, and how many parts a dotted key may have. -/
def nesting : Nat := 80

def dottedKey : Reader (List Key × Key) := do
  dotted nesting (← key)

def pair (around : Reader Unit) (value : Reader Value) : Reader Line := do
  let (way, last) ← dottedKey
  around
  expect ['=']
  around
  return .pair way last (← value)

/-- Takes what stands between an opening and a closing bracket: items parted by commas, one of
which may stand after the last, with blanks, comments and newlines in between. -/
def bracketed {α : Type} (close : Char) (item : Reader α) : Nat → Reader (List α)
  | 0 => failure
  | fuel + 1 => do
    trivia (fuel + 1)
    if ← accept [close] then return []
    let a ← item
    trivia (fuel + 1)
    if ← accept [','] then return a :: (← bracketed close item fuel)
    expect [close]
    return [a]

/-- Takes an unquoted scalar. A blank may part a date from the time after it. -/
def scalar : Reader Value := do
  let start ← offset
  let first ← takeWhile isScalarChar
  let text ← match afterDate? first, ← rest with
    | some [], ' ' :: d :: _ =>
      if d.isDigit then do
        let more ← take 1
        pure (first ++ more ++ (← takeWhile isScalarChar))
      else pure first
    | _, _ => pure first
  match scalar? ⟨start, ← offset⟩ text with
  | some v => return v
  | none => failure

def simple : Reader Value := do
  let start ← offset
  let string := fun (s : String) => do return Value.string ⟨start, ← offset⟩ s
  if let some s ← lines? '"' true then return ← string s
  if let some s ← lines? '\'' false then return ← string s
  if let some s ← line? '"' true then return ← string s
  if let some s ← line? '\'' false then return ← string s
  scalar

def value : Nat → Reader Value
  | 0 => simple
  | depth + 1 => do
    let start ← offset
    let fuel := (← rest).length + 1
    if ← accept ['['] then
      let elements ← bracketed ']' (value depth) fuel
      return .array ⟨start, ← offset⟩ false elements
    if ← accept ['\x7b'] then
      let pairs ← bracketed '\x7d' (pair (trivia fuel) (value depth)) fuel
      let some entries := Entries.fill [] pairs | failure
      return .table ⟨start, ← offset⟩ .braced entries
    simple

def header : Reader Line := do
  let ((inArray, way, last), span) ← spanned do
    expect ['[']
    let inArray ← accept ['[']
    blanks
    let (way, last) ← dottedKey
    expect (if inArray then [']', ']'] else [']'])
    return (inArray, way, last)
  return .header span inArray way last

def document : Nat → Reader (List Line)
  | 0 => pure []
  | fuel + 1 => do
    blanks
    match ← rest with
    | [] => return []
    | c :: _ =>
      if c == '#' || c == '\r' || c == '\n' then
        endOfLine
        document fuel
      else
        let line ← if c == '[' then header else pair blanks (value nesting)
        endOfLine
        return line :: (← document fuel)

end Reader

/-- The entries of a TOML document, if the text is one. A byte order mark may begin it. -/
def Entries.ofText? (text : String) : Option Entries := do
  let reader : Reader (List Line) := do
    let _ ← Reader.accept ['\ufeff']
    Reader.document (text.length + 1)
  let (lines, _) ← reader.run ⟨text.toList, 0⟩
  Entries.ofLines lines

end PathAudit.Toml
