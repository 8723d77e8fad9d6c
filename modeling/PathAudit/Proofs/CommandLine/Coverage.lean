import PathAudit.Proofs.Checker.Findings
import PathAudit.Proofs.CommandLine.Naming
import PathAudit.Proofs.ProjectRoot
import PathAudit.Proofs.Sources.History

/-! What a check of files covers. The files are added under their names one after the other, so that
the later of two that share a name takes the place of the earlier. -/

namespace PathAudit

variable {disk : Disk} {root : Location} {paths : List String} {p : SourceSet}
  {text : String → String}

namespace ProjectRoot

theorem exists_of_current (h : current.answer disk = .ok root) :
    ∃ dir, disk.workingDirectory = .ok dir ∧ root ∈ dir.ancestors := by
  rw [answer_current] at h
  cases hdir : disk.workingDirectory with
  | error cause =>
    rw [hdir] at h
    cases h
  | ok dir =>
    refine ⟨dir, rfl, ?_⟩
    simp only [hdir, answer_above] at h
    split at h
    · next hfound =>
      cases h
      exact List.mem_of_find?_eq_some hfound
    · cases h

end ProjectRoot

namespace CommandLine

theorem exists_of_checkRoot_none (h : (checkRoot none).answer disk = .ok root) :
    ∃ dir, disk.workingDirectory = .ok dir ∧ root ∈ dir.ancestors := by
  rw [checkRoot, Query.answer_bind, Query.answer_pure] at h
  cases hcurrent : ProjectRoot.current.answer disk with
  | error e =>
    rw [hcurrent] at h
    cases h
  | ok found =>
    rw [hcurrent] at h
    cases h
    exact ProjectRoot.exists_of_current hcurrent

theorem checkRoot_absolute {given : Option String} (hdisk : disk.Rooted)
    (h : (checkRoot given).answer disk = .ok root) : root.absolute := by
  cases given with
  | none =>
    obtain ⟨dir, hdir, hroot⟩ := exists_of_checkRoot_none h
    obtain ⟨path, hpath, rfl⟩ := hdisk dir hdir
    obtain ⟨k, -, rfl⟩ := List.mem_map.1 hroot
    exact Location.ofPath_absolute hpath
  | some path =>
    rw [checkRoot, Query.answer_bind, Query.answer_pure] at h
    cases hlocate : (Query.locate path).answer disk with
    | error e =>
      rw [hlocate] at h
      cases h
    | ok l =>
      rw [hlocate] at h
      cases h
      exact (hdisk.locate hlocate).1

theorem answer_addFiles (p : SourceSet) (htext : ∀ path ∈ paths, disk.text path = .ok (text path)) :
    (addFiles root p paths).answer disk = .ok (p.run ((paths.map fun path =>
      ⟨(shownName root path).answer disk, text path⟩).map .insert)) := by
  induction paths generalizing p with
  | nil => rfl
  | cons path paths ih =>
    obtain ⟨hpath, hpaths⟩ := List.forall_mem_cons.1 htext
    rw [addFiles, Query.answer_bind, Query.answer_textAt, hpath]
    change Query.answer disk (shownName root path >>= fun name => _) = _
    rw [Query.answer_bind, ih _ hpaths]
    rfl

theorem answer_findingsOf (s : Service) (names : List String) : (findingsOf s names).answer disk =
    names.flatMap fun name => s.syntactic name ++ (s.semantic name).answer disk := by
  induction names with
  | nil => rfl
  | cons name names ih =>
    rw [findingsOf, Query.answer_bind, Query.answer_bind, Query.answer_pure, ih, List.flatMap_cons]

/-- A check reports on each source of its set in turn. -/
theorem answer_findingsOf_names (p : SourceSet) (c : Checker) :
    let service := (Service.ofSources p).withPathChecks c
    (findingsOf service service.names).answer disk = p.sources.flatMap (c.reportOn disk) := by
  intro service
  rw [answer_findingsOf, show service.names = p.sources.map Source.name from rfl, List.flatMap_map,
    List.flatMap_def, List.flatMap_def]
  congr 1
  apply List.map_congr_left
  intro s hs
  have hfound := SourceSet.get?_of_mem hs
  have hsyntactic : service.syntactic s.name = s.errors.map (Service.syntaxFinding s.name) := by
    simp [service, Service.withPathChecks, Service.ofSources, hfound]
  have hsemantic : (service.semantic s.name).answer disk = c.rejectedIn disk s.name s.text := by
    rw [Service.answer_semantic_withPathChecks]
    simp [Service.ofSources, hfound]
  rw [hsyntactic, hsemantic, Checker.reportOn]

theorem answer_runCheck {a : CheckArguments} {configured : Config} {sources : SourceSet}
    (hroot : (checkRoot a.root).answer disk = .ok root)
    (hconfig : (Config.load root.toPath).answer disk = .ok configured)
    (hsources : (addFiles root .empty a.files).answer disk = .ok sources) :
    let findings := sources.sources.flatMap
      ((⟨effectiveConfig a configured, root⟩ : Checker).reportOn disk)
    (runCheck a).answer disk =
      .ok ⟨!findings.any Diagnostic.isError, report a.format sources findings⟩ := by
  intro findings
  rw [runCheck, Query.answer_bind, hroot]
  change Query.answer disk (Config.load root.toPath >>= _) = _
  rw [Query.answer_bind, hconfig]
  change Query.answer disk (addFiles root .empty a.files >>= _) = _
  rw [Query.answer_bind, hsources]
  change Query.answer disk (findingsOf _ _ >>= _) = _
  rw [Query.answer_bind, answer_findingsOf_names]
  rfl

/-- A check of readable files gives different files different names exactly if there is no clash of
names among them. Then it reports all that there is to report on each of them, as the text that one
of the spellings of the file is read as. There is no clash where no root was given. -/
theorem check_covers_files (a : CheckArguments) (disk : Disk) (root : Location) (configured : Config)
    (place : String → Location) (text : String → String) (hdisk : disk.Rooted)
    (hroot : (checkRoot a.root).answer disk = .ok root)
    (hconfig : (Config.load root.toPath).answer disk = .ok configured)
    (hplace : ∀ path ∈ a.files, (Query.locate path).answer disk = .ok (place path))
    (htext : ∀ path ∈ a.files, disk.text path = .ok (text path)) :
    let checker : Checker := ⟨effectiveConfig a configured, root⟩
    let name path := (shownName root path).answer disk
    ∃ sources : SourceSet,
      let findings := sources.sources.flatMap (checker.reportOn disk)
      (runCheck a).answer disk =
        .ok ⟨!findings.any Diagnostic.isError, report a.format sources findings⟩ ∧
      (∀ n, n ∈ sources.names ↔ ∃ path ∈ a.files, name path = n) ∧
      ((∀ p ∈ a.files, ∀ q ∈ a.files, place p ≠ place q → name p ≠ name q) ↔
        ¬NameClash root place a.files) ∧
      (¬NameClash root place a.files → ∀ path ∈ a.files, ∃ last ∈ a.files,
        place last = place path ∧ ⟨name path, text last⟩ ∈ sources.sources ∧
          ∀ d ∈ checker.reportOn disk ⟨name path, text last⟩, d ∈ findings) ∧
      (a.root = none → ¬NameClash root place a.files) := by
  intro checker name
  have hroot_absolute := checkRoot_absolute hdisk hroot
  have hname (path : String) (hpath : path ∈ a.files) : name path = nameFor root (place path) path :=
    answer_shownName (hplace path hpath)
  have hdistinct : (∀ p ∈ a.files, ∀ q ∈ a.files, place p ≠ place q → name p ≠ name q) ↔
      ¬NameClash root place a.files := by
    rw [← names_distinct_iff hroot_absolute fun path hpath => hdisk.locate (hplace path hpath)]
    grind
  let added := a.files.map fun path => (⟨name path, text path⟩ : Source)
  have hadded : (addFiles root .empty a.files).answer disk =
      .ok (SourceSet.empty.run (added.map .insert)) := answer_addFiles _ htext
  refine ⟨_, answer_runCheck hroot hconfig hadded, fun n => ?_, hdistinct, ?_, ?_⟩
  · rw [(SourceSet.mem_run_inserts added).1]
    constructor
    · rintro ⟨s, hs, rfl⟩
      obtain ⟨path, hpath, rfl⟩ := List.mem_map.1 hs
      exact ⟨path, hpath, rfl⟩
    · rintro ⟨path, hpath, rfl⟩
      exact ⟨_, List.mem_map_of_mem hpath, rfl⟩
  · intro hclash path hpath
    obtain ⟨t, ht, htn, hmem⟩ := (SourceSet.mem_run_inserts added).2 ⟨name path, text path⟩
      (List.mem_map_of_mem hpath) rfl
    obtain ⟨last, hlast, rfl⟩ := List.mem_map.1 ht
    -- Without a clash the name tells the place, so the last file of this name is this file.
    have hplaced : place last = place path := by
      by_cases h : place last = place path
      · exact h
      · exact absurd htn (hdistinct.2 hclash last hlast path hpath h)
    change name last = name path at htn
    rw [← htn]
    exact ⟨last, hlast, hplaced, hmem, fun d hd => List.mem_flatMap_of_mem hmem hd⟩
  · intro hnone
    rw [hnone] at hroot
    obtain ⟨dir, hdir, hancestor⟩ := exists_of_checkRoot_none hroot
    exact not_nameClash_of_within hdisk hroot_absolute hdir
      (Location.startsWith_of_mem_ancestors hancestor) hplace

theorem reportOn_empty (c : Checker) (disk : Disk) (name : String) :
    c.reportOn disk ⟨name, ""⟩ = [] := by
  have hscan : Scan.ofText "" = ⟨[], []⟩ := by decide +kernel
  have hdeclared : (⟨Parser.topLevel []⟩ : Module).pathDeclarations = [] := by cbv
  simp [Checker.reportOn, Checker.rejectedIn, Source.errors, Parsed.ofText, hscan, hdeclared]

/-- A directory `r` with the file `a.ts` and, in a folder `x`, an empty file of the same name. -/
def twins : Disk where
  entry _ := none
  text path := if path = "a.ts" ∨ path = "/r/a.ts" then .ok strayDeclaration
    else if path = "x/a.ts" ∨ path = "./x/a.ts" then .ok "" else .error .notFound
  workingDirectory := .ok (Location.ofNames ["r"])

theorem rooted_twins : twins.Rooted :=
  Disk.rooted_of_names rfl (by unfold Step.IsName; decide)

def checkFromX (files : List String) : CheckArguments :=
  ⟨files, none, false, some "x", .short, false⟩

theorem reportOn_strayDeclaration (name : String) :
    (⟨.default, Location.ofNames ["r", "x"]⟩ : Checker).reportOn twins ⟨name, strayDeclaration⟩ =
      [⟨.error, 9999, "Invalid path: \"gone\" does not exist or is not accessible", some name,
        some ⟨23, 6⟩⟩] := by
  obtain ⟨herrors, hdeclared⟩ := pathDeclarations_strayDeclaration
  have hrejected : (⟨.default, Location.ofNames ["r", "x"]⟩ : Checker).rejects twins
      ⟨.file, "p", "gone", ⟨23, 29⟩⟩ = true := by rfl
  simp only [Checker.reportOn, Checker.rejectedIn, Source.errors, herrors, hdeclared,
    List.filter_cons, hrejected]
  rfl

theorem checkRoot_checkFromX (files : List String) :
    (checkRoot (checkFromX files).root).answer twins = .ok (Location.ofNames ["r", "x"]) := rfl

theorem load_twins :
    (Config.load (Location.ofNames ["r", "x"]).toPath).answer twins = .ok .default := by
  rfl

/-- The file in the root takes the place of its neighbour outside, and what there is to report on the
neighbour is lost. -/
theorem neighbour_is_hidden :
    (Query.locate "a.ts").answer twins = .ok (Location.ofNames ["r", "a.ts"]) ∧
    (Query.locate "x/a.ts").answer twins = .ok (Location.ofNames ["r", "x", "a.ts"]) ∧
    (runCheck (checkFromX ["a.ts"])).answer twins = .ok ⟨false,
      "a.ts@23+6: error[9999]: Invalid path: \"gone\" does not exist or is not accessible\n"⟩ ∧
    (runCheck (checkFromX ["a.ts", "x/a.ts"])).answer twins = .ok ⟨true, ""⟩ := by
  refine ⟨rfl, rfl, ?_, ?_⟩
  · have hadded : (addFiles (Location.ofNames ["r", "x"]) .empty ["a.ts"]).answer twins =
        .ok (SourceSet.empty.insert ⟨"a.ts", strayDeclaration⟩) := rfl
    have hsources : (SourceSet.empty.insert ⟨"a.ts", strayDeclaration⟩).sources =
        [⟨"a.ts", strayDeclaration⟩] := rfl
    have hconfig : effectiveConfig (checkFromX ["a.ts"]) .default = .default := rfl
    rw [answer_runCheck (checkRoot_checkFromX _) load_twins hadded, hsources, hconfig,
      List.flatMap_cons, reportOn_strayDeclaration]
    rfl
  · have hadded : (addFiles (Location.ofNames ["r", "x"]) .empty ["a.ts", "x/a.ts"]).answer twins =
        .ok (SourceSet.empty.insert ⟨"a.ts", ""⟩) := rfl
    have hsources : (SourceSet.empty.insert ⟨"a.ts", ""⟩).sources = [⟨"a.ts", ""⟩] := rfl
    have hconfig : effectiveConfig (checkFromX ["a.ts", "x/a.ts"]) .default = .default := rfl
    rw [answer_runCheck (checkRoot_checkFromX _) load_twins hadded, hsources, hconfig,
      List.flatMap_cons, reportOn_empty]
    rfl

/-- The neighbour is reported on where it is spelled as no file in the root is named. -/
theorem neighbour_is_reported :
    let files := ["/r/a.ts", "x/a.ts", "./x/a.ts"]
    let place := fun path => Location.ofNames (if path = "/r/a.ts" then ["r", "a.ts"] else ["r", "x", "a.ts"])
    ¬NameClash (Location.ofNames ["r", "x"]) place files ∧
      ∃ output, (runCheck (checkFromX files)).answer twins = .ok ⟨false, output⟩ := by
  intro files place
  obtain ⟨sources, hrun, -, hdistinct, hreported, -⟩ :=
    check_covers_files (checkFromX files) twins (Location.ofNames ["r", "x"]) .default place
      (fun path => if path = "/r/a.ts" then strayDeclaration else "")
      rooted_twins (checkRoot_checkFromX files) load_twins
      (List.forall_mem_cons.2 ⟨rfl, List.forall_mem_cons.2 ⟨rfl, List.forall_mem_singleton.2 rfl⟩⟩)
      (List.forall_mem_cons.2 ⟨rfl, List.forall_mem_cons.2 ⟨rfl, List.forall_mem_singleton.2 rfl⟩⟩)
  have hclash : ¬NameClash (Location.ofNames ["r", "x"]) place files := by
    refine hdistinct.1 ?_
    decide
  refine ⟨hclash, ?_⟩
  obtain ⟨last, hlast, hplace, -, hfound⟩ := hreported hclash "/r/a.ts" (by decide)
  obtain rfl : last = "/r/a.ts" := by
    by_cases h : last = "/r/a.ts"
    · exact h
    · simp [place, h, Location.ofNames] at hplace
  have hfound := hfound _ (by
    change _ ∈ (⟨.default, Location.ofNames ["r", "x"]⟩ : Checker).reportOn twins ⟨_, strayDeclaration⟩
    rw [reportOn_strayDeclaration]
    exact List.mem_singleton_self _)
  rw [hrun, List.any_eq_true.2 ⟨_, hfound, rfl⟩]
  exact ⟨_, rfl⟩

end CommandLine

end PathAudit
