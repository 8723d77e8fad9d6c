import PathAudit.Proofs.CommandLine.Coverage
import PathAudit.Proofs.Text.Split
import PathAudit.Proofs.Token.Quoting

/-! The lines of a short report. A finding is written with the name of its file and its message, each
as it is, and a line end. The message about a piece that is no token quotes it, and a quoted text has
no line end; but the message about a path repeats the value of the literal, and that may have some. -/

namespace PathAudit

variable {disk : Disk} {s t : String}

namespace Text

def newlines (s : String) : Nat := s.toList.count '\n'

theorem newlines_append (s t : String) : newlines (s ++ t) = newlines s + newlines t := by
  rw [newlines, String.toList_append, List.count_append, newlines, newlines]

theorem newlines_eq_zero_iff : newlines s = 0 ↔ '\n' ∉ s.toList :=
  List.count_eq_zero

theorem newlines_repr (n : Nat) : newlines n.repr = 0 := by
  rw [newlines_eq_zero_iff, Nat.toList_repr]
  intro h
  exact absurd (Nat.isDigit_of_mem_toDigits (by decide) (by decide) h) (by decide)

theorem newlines_toString (s : String) : newlines (toString s) = newlines s := rfl

theorem newline_not_mem_quoteChar (c : Char) : '\n' ∉ quoteChar c := by
  have hdigits (n : Nat) : '\n' ∉ hexDigits n := fun h => Token.plain_of_mem_hexDigits h '\n' (by decide) rfl
  unfold quoteChar
  split
  case h_7 hnewline _ _ =>
    split
    · simp [codePointEscape, hdigits]
    · exact fun h => hnewline (List.mem_singleton.1 h).symm
  all_goals decide

theorem newlines_quoted (s : String) : newlines (quoted s) = 0 := by
  rw [newlines_eq_zero_iff, quoted, String.toList_ofList, quote]
  simp [newline_not_mem_quoteChar]

/-- Texts on one line each, with a line end after each, are told apart by the line ends. -/
theorem splitOn_lines {lines : List (List Char)} (h : ∀ line ∈ lines, '\n' ∉ line) :
    (lines.flatMap (· ++ ['\n'])).splitOn '\n' = lines ++ [[]] := by
  simpa using splitOn_parts h []

end Text

open Text

theorem Unrecognized.newlines_message (e : Unrecognized) : newlines e.message = 0 := by
  have hplain : ∀ s ∈ ["lexer error: ", "unrecognized input ", " at ", ".."], newlines s = 0 := by
    decide
  unfold message description
  simp [newlines_append, newlines_toString, newlines_repr, newlines_quoted, hplain]

namespace Diagnostic

/-- The line ends of a finding on one line are those of the name of its file and of its message. -/
theorem newlines_summary (d : Diagnostic) :
    newlines d.summary = (d.fileName.map newlines).getD 0 + newlines d.message := by
  have hplain : ∀ s ∈ ["", "@", "+", ": ", "[", "]: "], newlines s = 0 := by decide
  have hcategory (c : Category) : newlines c.name = 0 := by cases c <;> decide
  unfold summary
  cases d.fileName with
  | none => simp [newlines_append, newlines_toString, newlines_repr, hplain, hcategory]
  | some file =>
    cases d.extent with
    | none => simp [newlines_append, newlines_toString, newlines_repr, hplain, hcategory]
    | some e => simp [newlines_append, newlines_toString, newlines_repr, hplain, hcategory]

end Diagnostic

namespace Checker

theorem newlines_message_finding (c : Checker) (name : String) (d : PathDeclaration) :
    newlines (c.finding name d).message = newlines d.value := by
  have hplain : ∀ s ∈ ["Invalid path: \"", "\" does not exist or is not accessible"], newlines s = 0 := by
    decide
  unfold finding
  simp [newlines_append, newlines_toString, hplain]

/-- A literal with a line end is rejected, for no path may hold one. -/
theorem rejects_of_newline (c : Checker) {d : PathDeclaration} (h : '\n' ∈ d.value.toList) :
    c.rejects disk d := by
  have hforbidden : Path.hasForbidden d.value := List.any_eq_true.2 ⟨'\n', h, by decide⟩
  rw [rejects, verdict, if_pos hforbidden]
  rfl

/-- Each finding on a source is on one line exactly if the name of the source is, where there is a
finding at all, and the value of each path declaration. -/
theorem newlines_reportOn_iff (c : Checker) (s : Source) :
    (∀ d ∈ c.reportOn disk s, newlines d.summary = 0) ↔
      (c.reportOn disk s ≠ [] → '\n' ∉ s.name.toList) ∧
        ∀ d ∈ s.outline.pathDeclarations, '\n' ∉ d.value.toList := by
  have hunknown (e : Unrecognized) :
      newlines (Service.syntaxFinding s.name e).summary = newlines s.name := by
    rw [Diagnostic.newlines_summary]
    show newlines s.name + newlines e.message = _
    rw [e.newlines_message]
    rfl
  have hpath (d : PathDeclaration) :
      newlines (c.finding s.name d).summary = newlines s.name + newlines d.value := by
    rw [Diagnostic.newlines_summary, newlines_message_finding]
    rfl
  have hmem (d : Diagnostic) : d ∈ c.reportOn disk s ↔
      (∃ e ∈ s.errors, Service.syntaxFinding s.name e = d) ∨
        ∃ p ∈ s.outline.pathDeclarations, c.rejects disk p ∧ c.finding s.name p = d := by
    simp [reportOn, rejectedIn, Source.outline, and_assoc]
  constructor
  · intro h
    constructor
    · -- Any finding tells that the name has no line end.
      intro hsome
      obtain ⟨d, hd⟩ := List.exists_mem_of_ne_nil _ hsome
      have hzero := h d hd
      apply newlines_eq_zero_iff.1
      rcases (hmem d).1 hd with ⟨e, -, rfl⟩ | ⟨p, -, -, rfl⟩
      · rwa [hunknown] at hzero
      · rw [hpath] at hzero
        omega
    · -- A value with a line end would be rejected and so be written.
      intro p hp hnewline
      have hzero := h _ ((hmem _).2 (.inr ⟨p, hp, c.rejects_of_newline hnewline, rfl⟩))
      rw [hpath] at hzero
      exact newlines_eq_zero_iff.1 (by omega) hnewline
  · rintro ⟨hname, hvalue⟩ d hd
    have hname := newlines_eq_zero_iff.2 (hname (List.ne_nil_of_mem hd))
    rcases (hmem d).1 hd with ⟨e, -, rfl⟩ | ⟨p, hp, -, rfl⟩
    · rw [hunknown, hname]
    · rw [hpath, hname, newlines_eq_zero_iff.2 (hvalue p hp)]

end Checker

namespace CommandLine

variable {root : Location} {configured : Config} {sources : SourceSet}

/-- A short report has a line end for each finding, and no more exactly if the findings hold none. -/
theorem newlines_report_short (p : SourceSet) (findings : List Diagnostic) :
    findings.length ≤ newlines (report .short p findings) ∧
      (newlines (report .short p findings) = findings.length ↔
        ∀ d ∈ findings, newlines d.summary = 0) := by
  have hend : newlines "\n" = 1 := by decide
  simp only [report]
  induction findings with
  | nil => exact ⟨Nat.zero_le _, fun _ => nofun, fun _ => rfl⟩
  | cons d findings ih =>
    obtain ⟨hle, hiff⟩ := ih
    simp only [List.map_cons, String.join_cons, newlines_append, hend, List.length_cons,
      List.forall_mem_cons, ← hiff]
    omega

/-- A short report has as many lines as findings exactly if no file that there is a finding on has a
line end in its name, and no path declaration has one in the value of its literal. Then the lines are
the findings; in any case there are no fewer lines than findings. -/
theorem short_report_lines_iff (a : CheckArguments) (disk : Disk) (root : Location)
    (configured : Config) (sources : SourceSet)
    (hroot : (checkRoot a.root).answer disk = .ok root)
    (hconfig : (Config.load root.toPath).answer disk = .ok configured)
    (hsources : (addFiles root .empty a.files).answer disk = .ok sources) :
    let checker : Checker := ⟨effectiveConfig a configured, root⟩
    let findings := sources.sources.flatMap (checker.reportOn disk)
    let plain := ∀ s ∈ sources.sources, (checker.reportOn disk s ≠ [] → '\n' ∉ s.name.toList) ∧
      ∀ d ∈ s.outline.pathDeclarations, '\n' ∉ d.value.toList
    ∃ written,
      (Command.check { a with format := .short }).run.answer disk =
        .ok ⟨!findings.any Diagnostic.isError, written⟩ ∧
      findings.length ≤ newlines written ∧
      (newlines written = findings.length ↔ plain) ∧
      (plain → written.toList.splitOn '\n' = findings.map (·.summary.toList) ++ [[]]) := by
  intro checker findings plain
  have hplain : (∀ d ∈ findings, newlines d.summary = 0) ↔ plain := by
    simp only [findings, List.forall_mem_flatMap]
    exact forall₂_congr fun s _ => checker.newlines_reportOn_iff s
  have hrun := answer_runCheck (a := { a with format := .short }) hroot hconfig hsources
  obtain ⟨hle, hiff⟩ := newlines_report_short sources findings
  refine ⟨report .short sources findings, hrun, hle, hiff.trans hplain, fun h => ?_⟩
  have hlines : (report .short sources findings).toList =
      (findings.map (·.summary.toList)).flatMap (· ++ ['\n']) := by
    simp [report, String.toList_join, List.flatMap_map]
  rw [hlines]
  apply splitOn_lines
  rw [List.forall_mem_map]
  exact fun d hd => newlines_eq_zero_iff.1 (hplain.2 h d hd)

theorem finding_takes_its_line : ∃ written,
    (Command.check (checkFromX ["a.ts"])).run.answer twins = .ok ⟨false, written⟩ ∧
      newlines written = 1 := by
  have hsources : (addFiles (.ofNames ["r", "x"]) .empty ["a.ts"]).answer twins =
      .ok (SourceSet.empty.insert ⟨"a.ts", strayDeclaration⟩) := rfl
  obtain ⟨written, hrun, -, hlines, -⟩ := short_report_lines_iff (checkFromX ["a.ts"]) twins
    (.ofNames ["r", "x"]) .default _ (checkRoot_checkFromX _) load_twins hsources
  have hone : (SourceSet.empty.insert ⟨"a.ts", strayDeclaration⟩).sources =
      [⟨"a.ts", strayDeclaration⟩] := rfl
  have hconfig : effectiveConfig (checkFromX ["a.ts"]) .default = .default := rfl
  rw [hone, hconfig, List.flatMap_cons, reportOn_strayDeclaration] at hrun hlines
  obtain ⟨-, hdeclared⟩ := pathDeclarations_strayDeclaration
  refine ⟨written, hrun, hlines.2 ?_⟩
  simp [Source.outline, hdeclared]

/-- A source with a path declaration whose literal holds an escaped line end. -/
def dividedDeclaration : String := "const p: FilePathStr = \"a\\nb\";"

def divided : Disk where
  entry _ := none
  text path := if path = "a.ts" then .ok dividedDeclaration else .error .notFound
  workingDirectory := .ok (Location.ofNames ["r"])

theorem pathDeclarations_dividedDeclaration : (Parsed.ofText dividedDeclaration).errors = [] ∧
    (Parsed.ofText dividedDeclaration).outline.pathDeclarations =
      [⟨.file, "p", "a\nb", ⟨23, 29⟩⟩] := by
  have hscan : Scan.ofText dividedDeclaration = ⟨[⟨.keyword .const, ⟨0, 5⟩⟩,
      ⟨.identifier "p", ⟨6, 7⟩⟩, ⟨.punctuation .colon, ⟨7, 8⟩⟩, ⟨.identifier "FilePathStr", ⟨9, 20⟩⟩,
      ⟨.punctuation .equals, ⟨21, 22⟩⟩, ⟨.string "a\nb", ⟨23, 29⟩⟩,
      ⟨.punctuation .semicolon, ⟨29, 30⟩⟩], []⟩ := by
    decide +kernel
  rw [Parsed.ofText, hscan]
  exact ⟨rfl, by cbv⟩

def checkDivided : CheckArguments :=
  ⟨["a.ts"], none, false, some "/r", .short, false⟩

/-- There is one finding on the source, and its report takes two lines. -/
theorem finding_takes_two_lines :
    (∃ d, (⟨.default, .ofNames ["r"]⟩ : Checker).reportOn divided ⟨"a.ts", dividedDeclaration⟩ = [d]) ∧
    ∃ written, (Command.check checkDivided).run.answer divided = .ok ⟨false, written⟩ ∧
      written = "a.ts@23+6: error[9999]: Invalid path: \"a\nb\" does not exist or is not accessible\n" ∧
      newlines written = 2 := by
  obtain ⟨herrors, hdeclared⟩ := pathDeclarations_dividedDeclaration
  have hrejected : (⟨.default, .ofNames ["r"]⟩ : Checker).rejects divided
      ⟨.file, "p", "a\nb", ⟨23, 29⟩⟩ := by rfl
  have hreport : (⟨.default, .ofNames ["r"]⟩ : Checker).reportOn divided ⟨"a.ts", dividedDeclaration⟩ =
      [⟨.error, 9999, "Invalid path: \"a\nb\" does not exist or is not accessible", some "a.ts",
        some ⟨23, 6⟩⟩] := by
    simp only [Checker.reportOn, Checker.rejectedIn, Source.errors, herrors, hdeclared,
      List.filter_cons, hrejected]
    rfl
  have hsources : (addFiles (.ofNames ["r"]) .empty ["a.ts"]).answer divided =
      .ok (SourceSet.empty.insert ⟨"a.ts", dividedDeclaration⟩) := rfl
  have hone : (SourceSet.empty.insert ⟨"a.ts", dividedDeclaration⟩).sources =
      [⟨"a.ts", dividedDeclaration⟩] := rfl
  have hconfig : effectiveConfig checkDivided .default = .default := rfl
  have hroot : (checkRoot checkDivided.root).answer divided = .ok (.ofNames ["r"]) := rfl
  have hload : (Config.load (Location.ofNames ["r"]).toPath).answer divided = .ok .default := by rfl
  have hrun := answer_runCheck hroot hload hsources
  rw [hone, hconfig, List.flatMap_cons, hreport] at hrun
  exact ⟨⟨_, hreport⟩, _, hrun, by decide +kernel, by decide +kernel⟩

end CommandLine

end PathAudit
