import PathAudit.CommandLine.Writing
import PathAudit.Proofs.CommandLine.Report

/-! When a check fails. Finding the root, loading the settings and reading the files are the stages
that can fail, and all of them come before the first piece of output. So a check fails for its first
fault and has then written nothing; checking itself never fails, and after it only the output can. -/

namespace PathAudit

variable {α β : Type} {disk : Disk} {root : Location} {paths : List String} {p : SourceSet}

namespace CommandLine

variable {output : Output} {taken : List String} {e : CommandError}

namespace Action

@[simp] theorem run_pure (a : α) : run disk output taken (pure a) = ⟨a, taken⟩ := rfl

@[simp] theorem run_bind (act : Action α) (f : α → Action β) : run disk output taken (act >>= f) =
    run disk output (run disk output taken act).taken (f (run disk output taken act).result) := by
  show run disk output taken (act.bind f) = _
  induction act generalizing taken with
  | done a => rfl
  | entry path next ih => exact ih _
  | text path next ih => exact ih _
  | workingDirectory next ih => exact ih _
  | write piece next ih =>
    simp only [bind, run]
    split <;> exact ih _

@[simp] theorem run_ask (q : Query α) : run disk output taken (ask q) = ⟨q.answer disk, taken⟩ := by
  induction q with
  | done a => rfl
  | entry path next ih => exact ih _
  | text path next ih => exact ih _
  | workingDirectory next ih => exact ih _

/-- The output takes all of some pieces, or those before one that it refuses. -/
theorem run_writeAll (disk : Disk) (output : Output) (taken pieces : List String) :
    (writeAll pieces).run disk output taken = ⟨.ok (), taken ++ pieces⟩ ∨
      ∃ before piece cause, before ++ [piece] <+: pieces ∧
        output (taken ++ before) piece = .error cause ∧
        (writeAll pieces).run disk output taken = ⟨.error cause, taken ++ before⟩ := by
  induction pieces generalizing taken with
  | nil => exact .inl (by rw [List.append_nil]; rfl)
  | cons piece pieces ih =>
    cases h : output taken piece with
    | error cause =>
      have hrun : (writeAll (piece :: pieces)).run disk output taken = ⟨.error cause, taken⟩ := by
        simp only [writeAll, run, h]
      exact .inr ⟨[], piece, cause, List.prefix_append _ _, by rwa [List.append_nil],
        by rwa [List.append_nil]⟩
    | ok u =>
      have hrun : (writeAll (piece :: pieces)).run disk output taken =
          (writeAll pieces).run disk output (taken ++ [piece]) := by
        simp only [writeAll, run, h]
      rw [hrun]
      rcases ih (taken ++ [piece]) with hall | ⟨before, next, cause, hbefore, hrefused, hstop⟩
      · exact .inl (List.append_cons taken piece pieces ▸ hall)
      · rw [← List.append_cons] at hrefused hstop
        exact .inr ⟨piece :: before, next, cause, List.cons_prefix_cons.2 ⟨rfl, hbefore⟩, hrefused, hstop⟩

end Action

/-- The last that a command has to say is written whole, or up to a piece that the output refuses. -/
theorem run_conclude (disk : Disk) (output : Output) (taken pieces : List String) (passed : Bool) :
    (conclude passed pieces).run disk output taken = ⟨.ok passed, taken ++ pieces⟩ ∨
      ∃ before piece cause, before ++ [piece] <+: pieces ∧
        output (taken ++ before) piece = .error cause ∧
        (conclude passed pieces).run disk output taken =
          ⟨.error (.output cause), taken ++ before⟩ := by
  rw [conclude, Action.run_bind]
  rcases Action.run_writeAll disk output taken pieces with h | ⟨before, piece, cause, hbefore, hrefused, h⟩
  · exact .inl (by rw [h]; rfl)
  · exact .inr ⟨before, piece, cause, hbefore, hrefused, by rw [h]; rfl⟩

theorem join_reportPieces (format : Format) (p : SourceSet) (findings : List Diagnostic) :
    String.join (reportPieces format p findings) = report format p findings := by
  cases format with
  | short => rfl
  | pretty => rfl
  | json => simp [reportPieces, report, String.join]

/-- Holds when a computation that writes comes to what it comes to when its output is collected: it fails
and has written nothing, or has only its output left to write. -/
def Agrees (disk : Disk) (act : Action (Except Failure Bool))
    (collected : Except CommandError Finished) : Prop :=
  match collected with
  | .error e => ∀ output taken, act.run disk output taken = ⟨.error (.command e), taken⟩
  | .ok finished => ∃ pieces, String.join pieces = finished.output ∧
      ∀ output taken, act.run disk output taken =
        (conclude finished.passed pieces).run disk output taken

theorem agrees_actCheck (a : CheckArguments) (disk : Disk) :
    Agrees disk (actCheck a) ((runCheck a).answer disk) := by
  cases hroot : (checkRoot a.root).answer disk with
  | error e => simp [Agrees, actCheck, runCheck, hroot]
  | ok root =>
    cases hconfig : (Config.load root.toPath).answer disk with
    | error e => simp [Agrees, actCheck, runCheck, hroot, hconfig]
    | ok configured =>
      cases hsources : (addFiles root .empty a.files).answer disk with
      | error e => simp [Agrees, actCheck, runCheck, hroot, hconfig, hsources]
      | ok sources =>
        rw [answer_runCheck hroot hconfig hsources]
        refine ⟨_, join_reportPieces _ _ _, fun output taken => ?_⟩
        simp [actCheck, hroot, hconfig, hsources, answer_findingsOf_names]

theorem agrees_actAtOnce (command : Query (Except CommandError Finished)) (disk : Disk) :
    Agrees disk (actAtOnce command) (command.answer disk) := by
  cases h : command.answer disk with
  | error e => simp [Agrees, actAtOnce, h]
  | ok finished => exact ⟨[finished.output], by simp [String.join], by simp [actAtOnce, h]⟩

/-- A command that writes as it goes comes to what it comes to when its output is collected. -/
theorem agrees_act (c : Command) (disk : Disk) : Agrees disk c.act (c.run.answer disk) := by
  cases c with
  | check a => exact agrees_actCheck a disk
  | validate a => exact agrees_actAtOnce _ disk
  | root directory => exact agrees_actAtOnce _ disk

/-- What stands in the way of a root: an empty path, or a relative one without a working directory; or, if no
root is given, that the working directory has no project root. -/
inductive RootFault (disk : Disk) : Option String → CommandError → Prop
  | empty : RootFault disk (some "") (.badRoot .emptyPath)
  | homeless {path : String} {cause : DiskError} (hpath : path ≠ "") (hrelative : ¬Path.isAbsolute path)
    (h : disk.workingDirectory = .error cause) : RootFault disk (some path) (.badRoot cause)
  | unresolved {cause : RootError} (h : ProjectRoot.current.answer disk = .error cause) :
    RootFault disk none (.root cause)

/-- What stands in the way of settings: a configuration file that is there and cannot be read, or
whose text is none. -/
inductive SettingsFault (disk : Disk) (path : String) : ConfigError → Prop
  | unreadable {cause : DiskError} (hthere : cause ≠ .notFound) (h : disk.text path = .error cause) :
    SettingsFault disk path (.unreadable path cause)
  | unparsable {text : String} {cause : ConfigFault} (htext : disk.text path = .ok text)
    (h : Config.ofFileText text = .error cause) : SettingsFault disk path (.unparsable path cause)

inductive FileFault (disk : Disk) : List String → CommandError → Prop
  | first {path : String} {paths : List String} {cause : DiskError} (h : disk.text path = .error cause) :
    FileFault disk (path :: paths) (.unreadable path cause)
  | later {path text : String} {paths : List String} {e : CommandError} (htext : disk.text path = .ok text)
    (h : FileFault disk paths e) : FileFault disk (path :: paths) e

/-- The first fault of a check, in the order of root, settings and files. -/
inductive FirstFault (disk : Disk) (a : CheckArguments) : CommandError → Prop
  | root {e : CommandError} (h : RootFault disk a.root e) : FirstFault disk a e
  | settings {root : Location} {e : ConfigError} (hroot : (checkRoot a.root).answer disk = .ok root)
    (h : SettingsFault disk (Path.join root.toPath Config.fileName) e) : FirstFault disk a (.config e)
  | file {root : Location} {configured : Config} {e : CommandError}
    (hroot : (checkRoot a.root).answer disk = .ok root)
    (hconfig : (Config.load root.toPath).answer disk = .ok configured)
    (h : FileFault disk a.files e) : FirstFault disk a e

theorem answer_checkRoot_eq_error_iff {given : Option String} :
    (checkRoot given).answer disk = .error e ↔ RootFault disk given e := by
  cases given with
  | none =>
    rw [checkRoot, Query.answer_bind, Query.answer_pure]
    cases hcurrent : ProjectRoot.current.answer disk with
    | error cause =>
      constructor
      · rintro ⟨⟩
        exact .unresolved hcurrent
      · rintro ⟨⟩
        simp_all [Except.mapError]
    | ok found =>
      constructor
      · intro h
        cases h
      · rintro ⟨⟩
        simp_all
  | some path =>
    rw [checkRoot, Query.answer_bind, Query.answer_pure]
    have hroot : ((Query.locate path).answer disk).mapError CommandError.badRoot = .error e ↔
        ∃ cause, (Query.locate path).answer disk = .error cause ∧ .badRoot cause = e := by
      cases (Query.locate path).answer disk <;> simp [Except.mapError]
    simp only [hroot, Query.answer_locate_eq_error_iff]
    constructor
    · rintro ⟨cause, ⟨rfl, rfl⟩ | ⟨hpath, hrelative, h⟩, rfl⟩
      · exact .empty
      · exact .homeless hpath hrelative h
    · rintro (_ | ⟨hpath, hrelative, h⟩ | _)
      · exact ⟨_, .inl ⟨rfl, rfl⟩, rfl⟩
      · exact ⟨_, .inr ⟨hpath, hrelative, h⟩, rfl⟩

theorem answer_load_eq_error_iff {directory : String} {e : ConfigError} :
    (Config.load directory).answer disk = .error e ↔
      SettingsFault disk (Path.join directory Config.fileName) e := by
  rw [Config.load, Query.answer_bind, Query.answer_textAt]
  constructor
  · intro h
    split at h
    · cases h
    · next cause hthere hcause =>
      cases h
      exact .unreadable hthere hcause
    · next text htext =>
      cases hparsed : Config.ofFileText text with
      | ok c => simp [hparsed, Except.mapError] at h
      | error cause =>
        rw [hparsed] at h
        cases h
        exact .unparsable htext hparsed
  · rintro (⟨hthere, h⟩ | ⟨htext, h⟩)
    · rw [h]
      split <;> simp_all
    · rw [htext]
      simp [h, Except.mapError]

theorem answer_addFiles_eq_error_iff :
    (addFiles root p paths).answer disk = .error e ↔ FileFault disk paths e := by
  induction paths generalizing p with
  | nil => exact ⟨nofun, nofun⟩
  | cons path paths ih =>
    rw [addFiles, Query.answer_bind, Query.answer_textAt]
    cases htext : disk.text path with
    | error cause =>
      constructor
      · rintro ⟨⟩
        exact .first htext
      · rintro (h | ⟨h, -⟩)
        · rw [htext] at h
          cases h
          rfl
        · rw [htext] at h
          cases h
    | ok text =>
      change Query.answer disk (shownName root path >>= fun name => _) = _ ↔ _
      rw [Query.answer_bind, ih]
      constructor
      · exact .later htext
      · rintro (h | ⟨-, h⟩)
        · rw [htext] at h
          cases h
        · exact h

theorem answer_runCheck_eq_error_iff {a : CheckArguments} :
    (runCheck a).answer disk = .error e ↔ FirstFault disk a e := by
  constructor
  · intro h
    cases hroot : (checkRoot a.root).answer disk with
    | error cause =>
      obtain rfl : cause = e := by simpa [runCheck, hroot] using h
      exact .root (answer_checkRoot_eq_error_iff.1 hroot)
    | ok root =>
      cases hconfig : (Config.load root.toPath).answer disk with
      | error cause =>
        obtain rfl : .config cause = e := by simpa [runCheck, hroot, hconfig] using h
        exact .settings hroot (answer_load_eq_error_iff.1 hconfig)
      | ok configured =>
        cases hsources : (addFiles root .empty a.files).answer disk with
        | error cause =>
          obtain rfl : cause = e := by simpa [runCheck, hroot, hconfig, hsources] using h
          exact .file hroot hconfig (answer_addFiles_eq_error_iff.1 hsources)
        | ok sources =>
          rw [answer_runCheck hroot hconfig hsources] at h
          cases h
  · intro h
    cases h with
    | root h => simp [runCheck, answer_checkRoot_eq_error_iff.2 h]
    | settings hroot h => simp [runCheck, hroot, answer_load_eq_error_iff.2 h]
    | @file root _ _ hroot hconfig h =>
      have hsources : (addFiles root .empty a.files).answer disk = .error e :=
        answer_addFiles_eq_error_iff.2 h
      simp [runCheck, hroot, hconfig, hsources]

/-- A check that has a fault fails for the first of its faults and has written nothing, whatever its
format. Else it fails only where the output refuses a piece, and if the output takes all pieces, it ends with
its verdict and has written all that it reports. -/
theorem check_fails_before_writing (a : CheckArguments) (disk : Disk) (output : Output) :
    let outcome := (Command.check a).act.run disk output []
    (∀ e, FirstFault disk a e → outcome = ⟨.error (.command e), []⟩) ∧
    (∀ e, outcome.result = .error (.command e) → FirstFault disk a e) ∧
    (∀ cause, outcome.result = .error (.output cause) →
      ∃ piece, output outcome.taken piece = .error cause) ∧
    ((∀ taken piece, output taken piece = .ok ()) → (∀ e, ¬FirstFault disk a e) →
      ∃ passed, outcome.result = .ok passed ∧
        (Command.check a).run.answer disk = .ok ⟨passed, String.join outcome.taken⟩) := by
  intro outcome
  have hagrees := agrees_act (.check a) disk
  cases hrun : (Command.check a).run.answer disk with
  | error fault =>
    rw [hrun] at hagrees
    have houtcome : outcome = ⟨.error (.command fault), []⟩ := hagrees output []
    have hfirst : ∀ e, FirstFault disk a e ↔ e = fault := by
      intro e
      rw [← answer_runCheck_eq_error_iff, eq_comm (a := e)]
      exact ⟨fun h => Except.error.inj (hrun.symm.trans h), fun h => h ▸ hrun⟩
    rw [houtcome]
    refine ⟨?_, ?_, nofun, fun _ hnone => absurd ((hfirst fault).2 rfl) (hnone fault)⟩
    · intro e he
      rw [(hfirst e).1 he]
    · rintro e ⟨⟩
      exact (hfirst _).2 rfl
  | ok finished =>
    rw [hrun] at hagrees
    obtain ⟨pieces, hpieces, hact⟩ := hagrees
    have houtcome : outcome = _ := hact output []
    -- The check has no fault, so that an act that fails was refused a piece.
    have hnone : ∀ e, ¬FirstFault disk a e := by
      intro e he
      rw [← answer_runCheck_eq_error_iff] at he
      cases hrun.symm.trans he
    refine ⟨fun e he => absurd he (hnone e), ?_⟩
    rw [houtcome]
    rcases run_conclude disk output [] pieces finished.passed with
      hall | ⟨before, piece, cause, -, hrefused, hstop⟩
    · rw [hall, List.nil_append]
      exact ⟨nofun, nofun, fun _ _ => ⟨_, rfl, by rw [hpieces]⟩⟩
    · rw [hstop]
      refine ⟨nofun, ?_, fun hopen _ => ?_⟩
      · rintro _ ⟨⟩
        exact ⟨piece, hrefused⟩
      · rw [hopen] at hrefused
        cases hrefused

/-- A missing file behind one with a finding: the check fails for the file and has not reported the finding.
With a file in its place that can be read, it ends and has reported. -/
theorem missing_file_comes_before_finding :
    let check files := Command.check ⟨files, none, false, some "/r", .json, false⟩
    let taking : Output := fun _ _ => .ok ()
    (check ["b.ts", "c.ts"]).act.run untidy taking [] =
      ⟨.error (.command (.unreadable "c.ts" .notFound)), []⟩ ∧
    ∃ passed pieces, (check ["b.ts", "a.ts"]).act.run untidy taking [] = ⟨.ok passed, pieces⟩ := by
  intro check taking
  have hroot : (checkRoot (some "/r")).answer untidy = .ok (.ofNames ["r"]) := rfl
  have hconfig : (Config.load (Location.ofNames ["r"]).toPath).answer untidy = .ok .default := rfl
  constructor
  · exact (check_fails_before_writing ⟨["b.ts", "c.ts"], none, false, some "/r", .json, false⟩ untidy
      taking).1 _ (.file hroot hconfig (.later rfl (.first rfl)))
  · have hreadable : ∀ e, ¬FirstFault untidy ⟨["b.ts", "a.ts"], none, false, some "/r", .json, false⟩ e := by
      intro e h
      cases h with
      | root h => cases answer_checkRoot_eq_error_iff.2 h
      | settings hroot' h =>
        obtain rfl := Except.ok.inj (hroot.symm.trans hroot')
        cases answer_load_eq_error_iff.2 h
      | file _ _ h =>
        rcases h with h | ⟨-, h | ⟨-, ⟨⟩⟩⟩ <;> simp [untidy] at h
    obtain ⟨passed, hpassed, -⟩ := (check_fails_before_writing
      ⟨["b.ts", "a.ts"], none, false, some "/r", .json, false⟩ untidy taking).2.2.2
      (fun _ _ => rfl) hreadable
    exact ⟨passed, _, congrArg (Outcome.mk · _) hpassed⟩

end CommandLine

end PathAudit
