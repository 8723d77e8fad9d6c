import PathAudit.Text.Quoted
import PathAudit.Text.Position

/-! Tokens of a source text. Only what a declaration is made of is told apart: its three
keywords, the punctuation of declarations and types, names and string literals. Any other
visible character is a token of its own, so foreign code never stops a reader. -/

namespace PathAudit

inductive Keyword
  | const
  | lexical
  | var
deriving DecidableEq, Repr

def Keyword.text : Keyword → String
  | .const => "const"
  | .lexical => "let"
  | .var => "var"

def Keyword.ofText? : String → Option Keyword
  | "const" => some .const
  | "let" => some .lexical
  | "var" => some .var
  | _ => none

inductive Punctuation
  | colon
  | equals
  | arrow
  | semicolon
  | comma
  | dot
  | pipe
  | less
  | greater
  | openBrace
  | closeBrace
  | openParen
  | closeParen
  | openBracket
  | closeBracket
deriving DecidableEq, Repr

def Punctuation.text : Punctuation → String
  | .colon => ":"
  | .equals => "="
  | .arrow => "=>"
  | .semicolon => ";"
  | .comma => ","
  | .dot => "."
  | .pipe => "|"
  | .less => "<"
  | .greater => ">"
  | .openBrace => "\x7b"
  | .closeBrace => "\x7d"
  | .openParen => "("
  | .closeParen => ")"
  | .openBracket => "["
  | .closeBracket => "]"

/-- The punctuation that is one character, by that character. The arrow is the only one of
two. -/
def Punctuation.ofChar? : Char → Option Punctuation
  | ':' => some .colon
  | '=' => some .equals
  | ';' => some .semicolon
  | ',' => some .comma
  | '.' => some .dot
  | '|' => some .pipe
  | '<' => some .less
  | '>' => some .greater
  | '\x7b' => some .openBrace
  | '\x7d' => some .closeBrace
  | '(' => some .openParen
  | ')' => some .closeParen
  | '[' => some .openBracket
  | ']' => some .closeBracket
  | _ => none

/-- A token. A string literal carries its value, its escapes resolved; the contents of a
template literal and of a number are not kept. -/
inductive Token
  | keyword (word : Keyword)
  | punctuation (mark : Punctuation)
  | string (value : String)
  | template
  | number
  | identifier (name : String)
  | other (c : Char)
deriving DecidableEq, Repr

/-- How messages name a token. -/
def Token.text : Token → String
  | .keyword word => word.text
  | .punctuation mark => mark.text
  | .string value => Text.quoted value
  | .template => "template literal"
  | .number => "number"
  | .identifier name => name
  | .other c => String.singleton c

structure PlacedToken where
  token : Token
  span : Text.Span
deriving DecidableEq, Repr

structure Unrecognized where
  span : Text.Span
  input : String
deriving DecidableEq, Repr

def Unrecognized.description (e : Unrecognized) : String :=
  s!"unrecognized input {Text.quoted e.input} at {e.span.start}..{e.span.stop}"

def Unrecognized.message (e : Unrecognized) : String :=
  "lexer error: " ++ e.description

end PathAudit
