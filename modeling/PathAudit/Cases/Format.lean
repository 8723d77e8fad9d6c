import PathAudit.Text.Blank

/-! The format of checker cases. A case begins at a line `# test:` with its name; headers, the
source text and the expected findings follow it, each block closed by a line of its own. Lines
between cases are passed over. -/

namespace PathAudit

/-- A source text with the entries of its project, its settings and the findings that are expected
about it. The severity is kept as it is written. -/
structure Case where
  name : String
  line : Nat
  fixtures : List String
  severity : Option String
  strictKinds : Bool
  input : String
  expected : List String
deriving DecidableEq, Repr

namespace Case

abbrev Line := List Char × Nat

/-- What follows a label at the start of a line, blanks around both left out. -/
def labelled? (label : String) (line : List Char) : Option (List Char) :=
  let line := Text.trim line
  if label.toList.isPrefixOf line then some (Text.trim (line.drop label.length)) else none

/-- The lines before the first that consists of `mark`. -/
def before (mark : String) (lines : List Line) : List Line :=
  lines.takeWhile fun l => Text.trim l.1 != mark.toList

def after (mark : String) (lines : List Line) : List Line :=
  lines.drop ((before mark lines).length + 1)

def fixtureNames (list : List Char) : List String :=
  (((list.splitOn ',').map Text.trim).filter (!·.isEmpty)).map String.ofList

/-- Takes a header line into a case. Of two headers of one label the later counts. -/
def header (c : Case) (line : Line) : Case :=
  match labelled? "# fixtures:" line.1 with
  | some list => { c with fixtures := fixtureNames list }
  | none =>
    match labelled? "# severity:" line.1 with
    | some name => { c with severity := some (String.ofList name) }
    | none =>
      match labelled? "# strict:" line.1 with
      | some value => { c with strictKinds := value == "true".toList }
      | none => c

def ofBlocks (name : List Char) (number : Nat) (lines : List Line) : Case :=
  let headers := before "---" lines
  let input := before "---" (after "---" lines)
  let expected := before "===" (after "---" (after "---" lines))
  let case : Case :=
    { name := String.ofList name
      line := number
      fixtures := []
      severity := none
      strictKinds := false
      input := String.ofList (['\n'].intercalate (input.map Prod.fst))
      expected := ((expected.map fun l => Text.trim l.1).filter (!·.isEmpty)).map String.ofList }
  headers.foldl header case

def ofLines (lines : List Line) : List Case :=
  match lines with
  | [] => []
  | (line, number) :: rest =>
    match labelled? "# test:" line with
    | none => ofLines rest
    | some name =>
      ofBlocks name number rest :: ofLines (after "===" (after "---" (after "---" rest)))
termination_by lines.length
decreasing_by
  · simp
  · simp only [after, List.length_drop, List.length_cons]; omega

def ofText (text : String) : List Case :=
  ofLines ((Text.lines text.toList).zipIdx 1)

end Case

end PathAudit
