import PathAudit.Checker.Service

/-! The path findings about a text on a disk: one for each path declaration whose literal is rejected
there, in the order of the text. -/

namespace PathAudit

variable {disk : Disk}

namespace Checker

def rejects (c : Checker) (disk : Disk) (d : PathDeclaration) : Bool :=
  !((c.verdict d.kind d.value).answer disk).isOk

def rejectedIn (c : Checker) (disk : Disk) (name text : String) : List Diagnostic :=
  ((Parsed.ofText text).outline.pathDeclarations.filter (c.rejects disk)).map (c.finding name)

/-- What a check reports about a source: what is no token in it, and then its path findings. -/
def reportOn (c : Checker) (disk : Disk) (s : Source) : List Diagnostic :=
  s.errors.map (Service.syntaxFinding s.name) ++ c.rejectedIn disk s.name s.text

theorem rejects_eq_false_iff {c : Checker} {d : PathDeclaration} :
    c.rejects disk d = false ↔ ∃ l, (c.verdict d.kind d.value).answer disk = .ok l := by
  unfold rejects
  cases (c.verdict d.kind d.value).answer disk <;> simp [Except.isOk, Except.toBool]

theorem isError_finding (c : Checker) (name : String) (d : PathDeclaration) :
    (c.finding name d).isError ↔ c.config.severity = .error := by
  unfold finding Diagnostic.isError
  cases c.config.severity <;> simp [Severity.category]

/-- No finding is an error exactly if all is tokens and, unless path findings are none, no literal is
rejected. -/
theorem any_isError_reportOn (c : Checker) (s : Source) :
    (c.reportOn disk s).any Diagnostic.isError = false ↔
      s.errors = [] ∧ (c.config.severity ≠ .error ∨
        ∀ d ∈ s.outline.pathDeclarations, c.rejects disk d = false) := by
  have hunknown : (s.errors.map (Service.syntaxFinding s.name)).any Diagnostic.isError = false ↔
      s.errors = [] := by
    cases s.errors with
    | nil => simp
    | cons e es => simp [Diagnostic.isError, Service.syntaxFinding]
  have hpath : (c.rejectedIn disk s.name s.text).any Diagnostic.isError = false ↔
      (c.config.severity ≠ .error ∨
        ∀ d ∈ s.outline.pathDeclarations, c.rejects disk d = false) := by
    rw [rejectedIn, List.any_map, List.any_eq_false]
    simp only [Function.comp_apply, isError_finding, List.mem_filter, and_imp]
    by_cases hseverity : c.config.severity = .error
    · simp [hseverity, Source.outline]
    · simp [hseverity]
  rw [reportOn, List.any_append, Bool.or_eq_false_iff, hunknown, hpath]

theorem any_isError_flatMap_reportOn (c : Checker) (sources : List Source) :
    (sources.flatMap (c.reportOn disk)).any Diagnostic.isError = false ↔
      (∀ s ∈ sources, s.errors = []) ∧ (c.config.severity ≠ .error ∨
        ∀ s ∈ sources, ∀ d ∈ s.outline.pathDeclarations,
          ∃ l, (c.verdict d.kind d.value).answer disk = .ok l) := by
  induction sources with
  | nil => simp
  | cons s sources ih =>
    rw [List.flatMap_cons, List.any_append, Bool.or_eq_false_iff, ih, any_isError_reportOn,
      List.forall_mem_cons, List.forall_mem_cons]
    simp only [rejects_eq_false_iff]
    by_cases hseverity : c.config.severity = .error
    · simp only [hseverity, ne_eq, not_true_eq_false, false_or]
      exact and_and_and_comm
    · simp [hseverity]

theorem answer_findings (c : Checker) (name : String) (ds : List PathDeclaration) :
    (c.findings name ds).answer disk = (ds.filter (c.rejects disk)).map (c.finding name) := by
  induction ds with
  | nil => rfl
  | cons d ds ih =>
    rw [findings, Query.answer_bind]
    cases h : (c.verdict d.kind d.value).answer disk with
    | ok l =>
      have hkept : c.rejects disk d = false := by rw [rejects, h]; rfl
      simpa [hkept] using ih
    | error e =>
      have hfound : c.rejects disk d = true := by rw [rejects, h]; rfl
      simp [hfound, ih]

theorem answer_findingsIn (c : Checker) (s : Source) :
    (c.findingsIn s).answer disk = c.rejectedIn disk s.name s.text :=
  answer_findings c s.name _

end Checker

namespace Service

/-- What a service with path checks answers: its own findings, and after them the path findings
about the text that it shows under the name. -/
theorem answer_semantic_withPathChecks (s : Service) (c : Checker) (name : String) :
    ((s.withPathChecks c).semantic name).answer disk =
      (s.semantic name).answer disk ++
        match (s.sources.bind (·.get? name)).map Source.text with
        | some text => c.rejectedIn disk name text
        | none => [] := by
  show Query.answer disk (s.semantic name >>= fun own => _) = _
  rw [Query.answer_bind, Query.answer_bind, Query.answer_pure, pathFindings]
  congr 1
  cases h : s.sources.bind (·.get? name) with
  | none => rfl
  | some source =>
    obtain ⟨p, -, hp⟩ := Option.bind_eq_some_iff.1 h
    have hname : source.name = name := by simpa using List.find?_some hp
    rw [← hname]
    exact Checker.answer_findingsIn c source

end Service

def strayDeclaration : String := "const p: FilePathStr = \"gone\";"

theorem pathDeclarations_strayDeclaration : (Parsed.ofText strayDeclaration).errors = [] ∧
    (Parsed.ofText strayDeclaration).outline.pathDeclarations = [⟨.file, "p", "gone", ⟨23, 29⟩⟩] := by
  have hscan : Scan.ofText strayDeclaration = ⟨[⟨.keyword .const, ⟨0, 5⟩⟩, ⟨.identifier "p", ⟨6, 7⟩⟩,
      ⟨.punctuation .colon, ⟨7, 8⟩⟩, ⟨.identifier "FilePathStr", ⟨9, 20⟩⟩,
      ⟨.punctuation .equals, ⟨21, 22⟩⟩, ⟨.string "gone", ⟨23, 29⟩⟩,
      ⟨.punctuation .semicolon, ⟨29, 30⟩⟩], []⟩ := by
    decide +kernel
  rw [Parsed.ofText, hscan]
  exact ⟨rfl, by cbv⟩

end PathAudit
