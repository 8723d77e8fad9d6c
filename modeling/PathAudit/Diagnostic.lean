import PathAudit.Severity
import PathAudit.Text.Position

/-! Diagnostics: findings about a source file, and where they stand in its text. -/

namespace PathAudit

/-- A run of bytes given by its first offset and its length. -/
structure Extent where
  start : Nat
  length : Nat
deriving DecidableEq, Repr

/-- The extent of a span. A span that ends before it starts has length zero. -/
def Extent.ofSpan (span : Text.Span) : Extent :=
  ⟨span.start, span.stop - span.start⟩

def Extent.stop (e : Extent) : Nat :=
  e.start + e.length

structure Diagnostic where
  category : Category
  code : Nat
  message : String
  fileName : Option String
  extent : Option Extent
deriving DecidableEq, Repr

namespace Diagnostic

def isError (d : Diagnostic) : Bool :=
  d.category == .error

/-- The line and the column where the finding starts in a text, if it has an extent that starts
at a character of the text or at its end. -/
def lineColumn? (d : Diagnostic) (text : String) : Option Text.LineColumn :=
  d.extent.bind fun e => Text.lineColumn? text.toList e.start

/-- The diagnostic on one line, its place in front. The place needs a file name. -/
def summary (d : Diagnostic) : String :=
  let place := match d.fileName, d.extent with
    | none, _ => ""
    | some file, none => file ++ ": "
    | some file, some e => s!"{file}@{e.start}+{e.length}: "
  place ++ s!"{d.category.name}[{d.code}]: {d.message}"

end Diagnostic

end PathAudit
