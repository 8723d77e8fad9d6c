import PathAudit.Diagnostic
import PathAudit.Text.Blank

/-! Findings shown with their source line. Here a line ends at any of the characters that end a
line in Unicode, and a carriage return with a newline is one end. -/

namespace PathAudit.CommandLine

def endsLine (c : Char) : Bool :=
  c == '\n' || c == '\r' || c == '\x0b' || c == '\x0c' || c == '\u0085' || c == '\u2028' ||
    c == '\u2029'

/-- The lines of a text, each with the characters that end it. -/
def displayLines : List Char → List (List Char)
  | [] => []
  | '\r' :: '\n' :: r => ['\r', '\n'] :: displayLines r
  | c :: r =>
    if endsLine c then [c] :: displayLines r
    else match displayLines r with
      | [] => [[c]]
      | l :: ls => (c :: l) :: ls

/-- The line that holds an offset, counted from the start of the first of these lines, with its
number and the offset within it. The last line holds all offsets that none before it does. -/
def lineHolding (number offset : Nat) : List (List Char) → Nat × List Char × Nat
  | [] => (number, [], offset)
  | [l] => (number, l, offset)
  | l :: ls =>
    if offset < Text.byteLength l then (number, l, offset)
    else lineHolding (number + 1) (offset - Text.byteLength l) ls

def charsBefore (offset : Nat) : List Char → Nat
  | [] => 0
  | c :: r => if offset = 0 then 0 else charsBefore (offset - c.utf8Size) r + 1

def tabWidth : Nat := 4

/-- The characters of a line as they are shown, the first of them in a column: a tab reaches to
the next tab stop, and any other white space is one blank. -/
def shown (column : Nat) : List Char → List Char
  | [] => []
  | c :: r =>
    (if c = '\t' then List.replicate (tabWidth - column % tabWidth) ' '
      else if Text.isBlank c then [' '] else [c]) ++ shown (column + 1) r

def label : Category → String
  | .error => "Error"
  | .warning => "Warning"
  | .suggestion => "Advice"
  | .message => "Advice"

def snippet (d : Diagnostic) (text : String) : String :=
  let start := (d.extent.map Extent.start).getD 0
  let (number, line, offset) := lineHolding 1 start (displayLines text.toList)
  let name := d.fileName.getD "<unknown>"
  let place := s!"{name}:{number}:{charsBefore offset line + 1}"
  let width := (toString number).length
  let margin := "".pushn ' ' (width + 2)
  s!"[{d.code}] {label d.category}: {d.message}\n" ++
    margin ++ "╭─[ " ++ place ++ " ]\n" ++
    margin ++ "│\n" ++
    s!" {number} │ " ++ String.ofList (shown 0 (Text.trimEnd line)) ++ "\n" ++
    "".pushn '─' (width + 2) ++ "╯\n"

end PathAudit.CommandLine
