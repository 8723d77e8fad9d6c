import PathAudit.Proofs.CommandLine.Coverage
import PathAudit.Proofs.Config.File

/-! What a check reports and whether it passes. Of files with distinct names it reports on each in
turn: what is no token in it, and then its rejected literals. It passes if all is tokens and path
findings are no errors, or no literal is rejected; the format has no part in that. -/

namespace PathAudit.CommandLine

variable {disk : Disk} {root : Location} {configured : Config}

/-- The settings of a check: those of the command line, else those of the configuration file, else the
defaults. -/
theorem effectiveConfig_eq (a : CheckArguments)
    (h : (Config.load root.toPath).answer disk = .ok configured) : effectiveConfig a configured =
      ⟨(a.severity.or (Config.severityGiven? disk root.toPath)).getD .error,
        a.strictKinds || (Config.strictKindsGiven? disk root.toPath).getD false⟩ := by
  rw [Config.answer_load_eq_ok h, effectiveConfig, Option.getD_or]

/-- The set of files with distinct names has the text of each under its name, in their order. -/
theorem sources_of_addFiles {paths : List String} {text : String → String}
    (htext : ∀ path ∈ paths, disk.text path = .ok (text path))
    (hnames : (paths.map fun path => (shownName root path).answer disk).Nodup) :
    ∃ sources, (addFiles root .empty paths).answer disk = .ok sources ∧ sources.sources =
      paths.map fun path => ⟨(shownName root path).answer disk, text path⟩ := by
  let added := paths.map fun path => (⟨(shownName root path).answer disk, text path⟩ : Source)
  have hdistinct : ((SourceSet.empty.sources ++ added).map Source.name).Nodup := by
    rwa [SourceSet.empty, List.nil_append, List.map_map]
  exact ⟨_, answer_addFiles .empty htext, SourceSet.sources_run_inserts hdistinct⟩

/-- A check of readable files with distinct names reports on each file in turn, in each format alike.
It passes if all is tokens and, unless path findings are no errors, no path declaration has a literal
that is rejected. -/
theorem check_reports_files_in_turn (a : CheckArguments) (disk : Disk) (root : Location)
    (configured : Config) (text : String → String)
    (hroot : (checkRoot a.root).answer disk = .ok root)
    (hconfig : (Config.load root.toPath).answer disk = .ok configured)
    (htext : ∀ path ∈ a.files, disk.text path = .ok (text path))
    (hnames : (a.files.map fun path => (shownName root path).answer disk).Nodup) :
    let severity := (a.severity.or (Config.severityGiven? disk root.toPath)).getD .error
    let strictKinds := a.strictKinds || (Config.strictKindsGiven? disk root.toPath).getD false
    let checker : Checker := ⟨⟨severity, strictKinds⟩, root⟩
    let name path := (shownName root path).answer disk
    let unknown path := (Parsed.ofText (text path)).errors
    let declared path := (Parsed.ofText (text path)).outline.pathDeclarations
    let findings := a.files.flatMap fun path =>
      (unknown path).map (Service.syntaxFinding (name path)) ++
        ((declared path).filter (checker.rejects disk)).map (checker.finding (name path))
    ∃ passed : Bool,
      (passed ↔ (∀ path ∈ a.files, unknown path = []) ∧
        (severity ≠ .error ∨ ∀ path ∈ a.files, ∀ d ∈ declared path,
          ∃ l, (checker.verdict d.kind d.value).answer disk = .ok l)) ∧
      ∀ format, ∃ output,
        (Command.check { a with format := format }).run.answer disk = .ok ⟨passed, output⟩ ∧
        (format = .short → output = String.join (findings.map fun d => d.summary ++ "\n")) ∧
        (format = .json →
          output = Json.pretty 0 (.array (findings.map Diagnostic.toJson)) ++ "\n") := by
  intro severity strictKinds checker name unknown declared findings
  obtain ⟨sources, hadded, hsources⟩ := sources_of_addFiles htext hnames
  have hfindings : sources.sources.flatMap (checker.reportOn disk) = findings := by
    rw [hsources, List.flatMap_map]
    rfl
  have hpassed : findings.any Diagnostic.isError = false ↔
      (∀ path ∈ a.files, unknown path = []) ∧
        (severity ≠ .error ∨ ∀ path ∈ a.files, ∀ d ∈ declared path,
          ∃ l, (checker.verdict d.kind d.value).answer disk = .ok l) := by
    rw [← hfindings, Checker.any_isError_flatMap_reportOn, hsources, List.forall_mem_map,
      List.forall_mem_map]
    rfl
  refine ⟨!findings.any Diagnostic.isError, by simpa using hpassed, fun format => ?_⟩
  have hrun := answer_runCheck (a := { a with format := format }) hroot hconfig hadded
  rw [effectiveConfig_eq _ hconfig, hfindings] at hrun
  refine ⟨_, hrun, ?_, ?_⟩
  · rintro rfl
    rfl
  · rintro rfl
    rfl

/-- A directory `r` with a file that holds a missing path and one that holds a character that is no
token. -/
def untidy : Disk where
  entry _ := none
  text path := if path = "b.ts" then .ok strayDeclaration
    else if path = "a.ts" then .ok "\u00a0" else .error .notFound
  workingDirectory := .ok (Location.ofNames ["r"])

theorem parsed_hardSpace : (Parsed.ofText "\u00a0").errors = [⟨⟨0, 2⟩, "\u00a0"⟩] ∧
    (Parsed.ofText "\u00a0").outline.pathDeclarations = [] := by
  have hscan : Scan.ofText "\u00a0" = ⟨[], [⟨⟨0, 2⟩, "\u00a0"⟩]⟩ := by decide +kernel
  rw [Parsed.ofText, hscan]
  exact ⟨rfl, by cbv⟩

/-- The missing path comes first and is a warning; the character fails the check. -/
theorem warning_comes_first :
    (Command.check ⟨["b.ts", "a.ts"], some .warn, false, some "/r", .short, false⟩).run.answer untidy =
      .ok ⟨false,
        "b.ts@23+6: warning[9999]: Invalid path: \"gone\" does not exist or is not accessible\n" ++
        "a.ts@0+2: error[1002]: lexer error: unrecognized input \"\\u\x7ba0\x7d\" at 0..2\n"⟩ := by
  obtain ⟨passed, hpassed, hrun⟩ := check_reports_files_in_turn
    ⟨["b.ts", "a.ts"], some .warn, false, some "/r", .short, false⟩ untidy (.ofNames ["r"]) .default
    (fun path => if path = "b.ts" then strayDeclaration else "\u00a0") (by rfl) (by rfl)
    (by simp [untidy]) (by decide +kernel)
  obtain ⟨output, hanswer, hshort, -⟩ := hrun .short
  obtain ⟨herrors, hdeclared⟩ := pathDeclarations_strayDeclaration
  obtain ⟨herrors', hdeclared'⟩ := parsed_hardSpace
  have hfails : passed = false := by
    simpa [herrors'] using hpassed
  have hgiven : Config.strictKindsGiven? untidy (Location.ofNames ["r"]).toPath = none := rfl
  have hrejected : (⟨⟨.warn, false⟩, .ofNames ["r"]⟩ : Checker).rejects untidy
      ⟨.file, "p", "gone", ⟨23, 29⟩⟩ = true := rfl
  rw [hanswer, hshort rfl, hfails]
  simp only [List.flatMap_cons, List.flatMap_nil, if_true, if_false,
    show ("a.ts" = "b.ts") = False by decide, herrors, hdeclared, herrors', hdeclared',
    Option.some_or, Option.getD_some, hgiven, Option.getD_none, Bool.or_false, List.filter_cons,
    hrejected, List.filter_nil, List.map_nil, List.nil_append, List.append_nil, List.map_cons]
  refine congrArg (fun output => Except.ok (Finished.mk false output)) ?_
  decide +kernel

end PathAudit.CommandLine
