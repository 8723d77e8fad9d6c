import PathAudit.Token.Lexer
import PathAudit.Syntax.Basic

/-! Reading tokens into an outline. A reader answers what it read and how many tokens that took,
and never looks behind its start; an optional reader that answers nothing has taken nothing. No
token sequence is refused: a token that begins neither a statement nor a closed block is passed
over. -/

namespace PathAudit.Parser

/-- The further segments of a qualified name. Each takes two tokens, its dot and its name. -/
def segments : List PlacedToken → List Identifier
  | ⟨.punctuation .dot, _⟩ :: ⟨.identifier name, span⟩ :: r => ⟨name, span⟩ :: segments r
  | _ => []

def bracketPairs : List PlacedToken → Nat
  | ⟨.punctuation .openBracket, _⟩ :: ⟨.punctuation .closeBracket, _⟩ :: r => bracketPairs r + 1
  | _ => 0

def arrayOf (element : TypeExpr) : Nat → TypeExpr
  | 0 => element
  | n + 1 => arrayOf (.array element) n

def pipe : List PlacedToken → Nat
  | ⟨.punctuation .pipe, _⟩ :: _ => 1
  | _ => 0

mutual

/-- A type: members parted by pipes, before the first of which a pipe may stand. One member is
itself, more are a union. -/
def typeExpr (ts : List PlacedToken) : Option (TypeExpr × Nat) :=
  (union (ts.drop (pipe ts))).map fun (t, n) => (t, pipe ts + n)
termination_by (ts.length, 3)
decreasing_by
  simp only [List.length_drop, Prod.lex_def]; omega

def union (ts : List PlacedToken) : Option (TypeExpr × Nat) :=
  match member ts with
  | none => none
  | some (first, n) =>
    match alternatives (ts.drop n) with
    | ([], k) => some (first, n + k)
    | (more, k) => some (.union (first :: more), n + k)
termination_by (ts.length, 2)
decreasing_by
  · exact .right _ (by decide)
  · simp only [List.length_drop, Prod.lex_def]; omega

/-- The further members of a union. A pipe that no member follows is not taken. -/
def alternatives (ts : List PlacedToken) : List TypeExpr × Nat :=
  match ts with
  | ⟨.punctuation .pipe, _⟩ :: r =>
    match member r with
    | none => ([], 0)
    | some (t, n) =>
      let (more, k) := alternatives (r.drop n)
      (t :: more, 1 + n + k)
  | _ => ([], 0)
termination_by (ts.length, 1)
decreasing_by
  all_goals simp only [List.length_cons, List.length_drop, Prod.lex_def]; omega

def member (ts : List PlacedToken) : Option (TypeExpr × Nat) :=
  match primary ts with
  | none => none
  | some (t, n) =>
    let pairs := bracketPairs (ts.drop n)
    some (arrayOf t pairs, n + 2 * pairs)
termination_by (ts.length, 1)

/-- A name, a literal or a type in parentheses. Type arguments that are not closed are none. -/
def primary (ts : List PlacedToken) : Option (TypeExpr × Nat) :=
  match ts with
  | ⟨.identifier name, span⟩ :: r =>
    let more := segments r
    let q := QualifiedName.ofSegments ⟨name, span⟩ more
    match typeArguments (r.drop (2 * more.length)) with
    | none => some (.reference q [], 1 + 2 * more.length)
    | some (args, n) => some (.reference q args, 1 + 2 * more.length + n)
  | ⟨.string value, _⟩ :: _ => some (.literal value, 1)
  | ⟨.punctuation .openParen, _⟩ :: r =>
    match typeExpr r with
    | none => none
    | some (t, n) =>
      match r.drop n with
      | ⟨.punctuation .closeParen, _⟩ :: _ => some (.parenthesized t, n + 2)
      | _ => none
  | _ => none
termination_by (ts.length, 0)
decreasing_by
  all_goals simp only [List.length_cons, List.length_drop, Prod.lex_def]; omega

/-- Types in angle brackets, parted by commas, one of which may stand after the last. -/
def typeArguments (ts : List PlacedToken) : Option (List TypeExpr × Nat) :=
  match ts with
  | ⟨.punctuation .less, _⟩ :: r =>
    let (args, n) := typeList r
    match r.drop n with
    | ⟨.punctuation .greater, _⟩ :: _ => some (args, n + 2)
    | _ => none
  | _ => none
termination_by (ts.length, 0)
decreasing_by
  all_goals simp only [List.length_cons, Prod.lex_def]; omega

/-- Types parted by commas. A comma after a type is taken whether a type follows it or not. -/
def typeList (ts : List PlacedToken) : List TypeExpr × Nat :=
  match typeExpr ts with
  | none => ([], 0)
  | some (t, n) =>
    match _h : ts.drop n with
    | ⟨.punctuation .comma, _⟩ :: r =>
      let (more, k) := typeList r
      (t :: more, n + 1 + k)
    | _ => ([t], n)
termination_by (ts.length, 4)
decreasing_by
  · exact .right _ (by decide)
  · have := congrArg List.length _h
    simp only [List.length_drop, List.length_cons] at this
    simp only [Prod.lex_def]; omega

end

def endsInitializer : Token → Bool
  | .punctuation mark =>
    mark == .semicolon || mark == .comma || mark == .openBrace || mark == .closeBrace
  | .keyword _ => true
  | _ => false

/-- The tokens that make the string literal before them part of a larger expression. -/
def extendsLiteral : Token → Bool
  | .punctuation mark =>
    mark == .dot || mark == .openBracket || mark == .openParen || mark == .less ||
      mark == .greater || mark == .pipe || mark == .equals
  | .template => true
  | .other c => ['+', '-', '*', '/', '%', '&', '?', '!', '^'].contains c
  | .identifier word => ["as", "satisfies", "in", "instanceof"].contains word
  | _ => false

/-- The expression after the equals sign: a string literal that nothing continues, or all tokens
up to one that ends an expression. -/
def initializer (ts : List PlacedToken) : Initializer × Nat :=
  let run := (Initializer.other, (ts.takeWhile (!endsInitializer ·.token)).length)
  match ts with
  | ⟨.string value, span⟩ :: [] => (.literal value span, 1)
  | ⟨.string value, span⟩ :: next :: _ =>
    if extendsLiteral next.token then run else (.literal value span, 1)
  | _ => run

/-- A colon with the annotation after it. A colon before what is no type is not taken. -/
def ascription (ts : List PlacedToken) : Option TypeExpr × Nat :=
  match ts with
  | ⟨.punctuation .colon, _⟩ :: r =>
    match typeExpr r with
    | some (t, n) => (some t, n + 1)
    | none => (none, 0)
  | _ => (none, 0)

def assignment (ts : List PlacedToken) : Option Initializer × Nat :=
  match ts with
  | ⟨.punctuation .equals, _⟩ :: r =>
    let (e, n) := initializer r
    (some e, n + 1)
  | _ => (none, 0)

def declarator (ts : List PlacedToken) : Option (Declarator × Nat) :=
  match ts with
  | ⟨.identifier name, span⟩ :: r =>
    let (t, n) := ascription r
    let (e, k) := assignment (r.drop n)
    some (⟨⟨name, span⟩, t, e⟩, 1 + n + k)
  | _ => none

/-- The further declarators of a statement. A comma that no declarator follows is not taken. -/
def declarators (ts : List PlacedToken) : List Declarator × Nat :=
  match ts with
  | ⟨.punctuation .comma, _⟩ :: r =>
    match declarator r with
    | none => ([], 0)
    | some (d, n) =>
      let (more, k) := declarators (r.drop n)
      (d :: more, 1 + n + k)
  | _ => ([], 0)
termination_by ts.length
decreasing_by
  simp only [List.length_cons, List.length_drop]; omega

def semicolon : List PlacedToken → Nat
  | ⟨.punctuation .semicolon, _⟩ :: _ => 1
  | _ => 0

/-- What makes a variable statement of the keyword before these tokens: at least one declarator.
The statement ends where the last token that it took ends. -/
def statement (word : Keyword) (span : Text.Span) (ts : List PlacedToken) :
    Option (Statement × Nat) :=
  match declarator ts with
  | none => none
  | some (d, n) =>
    let (more, k) := declarators (ts.drop n)
    let count := n + k + semicolon (ts.drop (n + k))
    let stop := ((ts.take count).getLast?.map (·.span.stop)).getD span.stop
    some (⟨word, d :: more, ⟨span.start, stop⟩⟩, count)

/-- The items up to a brace that closes none of them, or up to the end. The contents of a brace
that is never closed belong to the level around it. -/
def items (ts : List PlacedToken) : List Item × Nat :=
  match ts with
  | [] => ([], 0)
  | ⟨.punctuation .closeBrace, _⟩ :: _ => ([], 0)
  | ⟨.punctuation .openBrace, _⟩ :: r =>
    let (inner, n) := items r
    match _h : r.drop n with
    | [] => (inner, 1 + n)
    | _ :: r' =>
      let (after, k) := items r'
      (.block inner :: after, 1 + n + 1 + k)
  | ⟨.keyword word, span⟩ :: r =>
    match statement word span r with
    | none =>
      let (after, k) := items r
      (after, 1 + k)
    | some (s, n) =>
      let (after, k) := items (r.drop n)
      (.variable s :: after, 1 + n + k)
  | _ :: r =>
    let (after, k) := items r
    (after, 1 + k)
termination_by ts.length
decreasing_by
  · simp
  · have := congrArg List.length _h
    simp only [List.length_drop, List.length_cons] at this
    simp only [List.length_cons]; omega
  · simp
  · simp only [List.length_cons, List.length_drop]; omega
  · simp

/-- All items of the tokens. A brace that closes none is passed over. -/
def topLevel (ts : List PlacedToken) : List Item :=
  let (before, n) := items ts
  match _h : ts.drop n with
  | [] => before
  | _ :: r => before ++ topLevel r
termination_by ts.length
decreasing_by
  have := congrArg List.length _h
  simp only [List.length_drop, List.length_cons] at this
  omega

end PathAudit.Parser

namespace PathAudit

/-- What reading a source text gives: its outline and the pieces that are no tokens, which take
nothing from the outline. -/
structure Parsed where
  outline : Module
  errors : List Unrecognized

def Parsed.ofText (source : String) : Parsed :=
  let scan := Scan.ofText source
  ⟨⟨Parser.topLevel scan.tokens⟩, scan.errors⟩

def Module.ofText? (source : String) : Except (List Unrecognized) Module :=
  let p := Parsed.ofText source
  if p.errors.isEmpty then .ok p.outline else .error p.errors

end PathAudit
