/-! Places in a text. An offset counts the bytes of the UTF-8 encoding; a line and a column
count from one, lines by newlines and columns by characters. -/

namespace PathAudit.Text

def byteLength : List Char → Nat
  | [] => 0
  | c :: s => c.utf8Size + byteLength s

/-- A run of bytes of a text, from `start` up to and without `stop`. -/
structure Span where
  start : Nat
  stop : Nat
deriving DecidableEq, Repr, Inhabited

/-- A line and a column, both counted from one. -/
structure LineColumn where
  line : Nat
  column : Nat
deriving DecidableEq, Repr

/-- Walks over a text that continues at `place`, up to the character that starts `offset` bytes
on. There is none when the text ends before, or when a character covers that byte but does not
start at it. -/
def advance (place : LineColumn) : List Char → Nat → Option LineColumn
  | _, 0 => some place
  | [], _ + 1 => none
  | c :: r, n + 1 =>
    if n + 1 < c.utf8Size then none
    else if c = '\n' then advance ⟨place.line + 1, 1⟩ r (n + 1 - c.utf8Size)
    else advance ⟨place.line, place.column + 1⟩ r (n + 1 - c.utf8Size)

def lineColumn? (s : List Char) (offset : Nat) : Option LineColumn :=
  advance ⟨1, 1⟩ s offset

@[simp] theorem byteLength_nil : byteLength [] = 0 := rfl

@[simp] theorem byteLength_cons (c : Char) (s : List Char) :
    byteLength (c :: s) = c.utf8Size + byteLength s := rfl

@[simp] theorem byteLength_append (s t : List Char) :
    byteLength (s ++ t) = byteLength s + byteLength t := by
  induction s with
  | nil => simp
  | cons c s ih => simp [ih, Nat.add_assoc]

end PathAudit.Text
