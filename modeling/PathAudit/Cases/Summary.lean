import PathAudit.Text.Blank

/-! Summaries of checker cases that were run. -/

namespace PathAudit

/-- What came of a case: the findings were those expected, they were others, or the case could not
be run. -/
inductive CaseResult
  | pass
  | fail (expected actual : String)
  | error (message : String)
deriving DecidableEq, Repr

structure CaseFailure where
  name : String
  line : Nat
  result : CaseResult
deriving DecidableEq, Repr

structure Summary where
  passed : Nat
  failed : Nat
  errors : Nat
  failures : List CaseFailure
deriving DecidableEq, Repr

namespace Summary

def empty : Summary := ⟨0, 0, 0, []⟩

def add (s : Summary) (name : String) (line : Nat) (result : CaseResult) : Summary :=
  let failures := s.failures ++ [⟨name, line, result⟩]
  match result with
  | .pass => { s with passed := s.passed + 1 }
  | .fail _ _ => { s with failed := s.failed + 1, failures := failures }
  | .error _ => { s with errors := s.errors + 1, failures := failures }

def total (s : Summary) : Nat := s.passed + s.failed + s.errors

def allPassed (s : Summary) : Bool := s.failures.isEmpty

def indented (text : String) : String :=
  String.join ((Text.lines text.toList).map fun l => "      " ++ String.ofList l ++ "\n")

def failureText (f : CaseFailure) : String :=
  s!"\n  {f.name} (line {f.line})\n" ++
    match f.result with
    | .pass => ""
    | .fail expected actual =>
      "    expected:\n" ++ indented expected ++ "    actual:\n" ++ indented actual
    | .error message => s!"    error: {message}\n"

def text (s : Summary) : String :=
  s!"{s.total} cases: {s.passed} passed, {s.failed} failed, {s.errors} errors\n" ++
    String.join (s.failures.map failureText)

end Summary

end PathAudit
