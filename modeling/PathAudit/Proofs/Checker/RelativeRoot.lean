import PathAudit.Proofs.Checker.Verdict
import PathAudit.Proofs.Disk.Relative

/-! A relative root beside the same root written in full, from the working directory. What the check
says of a relative literal is the same under both, but for two kinds of literals that it rejects under
the relative root alone: those that leave the root by its relative spelling and still lead into it, and
those that lead to the working directory itself, whose folded path is empty. -/

namespace PathAudit

variable {dir : List String} {r v : String} {tree : Node} {l base : Location}

namespace Location

theorem within_of_relative (hproper : l.Proper) (hbaseProper : base.Proper) (h : ¬l.absolute)
    (hbase : ¬base.absolute) (hups : base.ups ≤ l.ups) (hin : l.within base) :
    ((ofNames dir).resolve l.toPath).within ((ofNames dir).resolve base.toPath) := by
  obtain ⟨heq, hnames⟩ := (within_iff_of_relative h hbase hups).1 hin
  rw [resolve_toPath_of_relative hproper h, resolve_toPath_of_relative hbaseProper hbase,
    within_ofNames, heq, List.prefix_append_right_inj]
  exact hnames

/-- Where a literal leads under the root in full is where the folded literal leads under the relative
root, taken from the working directory. -/
theorem resolve_full (hdir : (ofNames dir).Proper) (r v : String) :
    (ofPath (Path.join (ofNames dir).toPath r)).resolve v =
      (ofNames dir).resolve ((ofPath r).resolve v).toPath := by
  rw [← ofPath_join r v]
  show _ = (ofNames dir).resolve (Path.fold (Path.join r v))
  rw [resolve_fold, resolve_join, ofPath_join, ofPath_toPath hdir]

end Location

namespace Checker

/-- What a check says of a literal, apart from where the literal leads. -/
def outcome (answer : Except Rejection Location) : Except Rejection Unit :=
  answer.map fun _ => ()

/-- The outcome for a literal that stays within the root, by the entry that it leads to. -/
def probed (config : Config) (kind : PathKind) : Option EntryKind → Except Rejection Unit
  | none => .error .missing
  | some entry => if config.strictKinds && !kind.admits entry then .error .wrongKind else .ok ()

theorem probed_ne_escapesRoot (config : Config) (kind : PathKind) (entry : Option EntryKind) :
    probed config kind entry ≠ .error .escapesRoot := by
  cases entry with
  | none => simp [probed]
  | some entry => by_cases h : config.strictKinds && !kind.admits entry <;> simp [probed, h]

theorem probed_some_ne_missing (config : Config) (kind : PathKind) (entry : EntryKind) :
    probed config kind (some entry) ≠ .error .missing := by
  by_cases h : config.strictKinds && !kind.admits entry <;> simp [probed, h]

theorem outcome_verdict {root : String} {config : Config} {kind : PathKind} {disk : Disk} :
    outcome (((ofRoot config root).verdict kind v).answer disk) =
      if Path.hasForbidden v then .error .forbiddenCharacters
      else if ((Location.ofPath root).resolve v).within (Location.ofPath root) then
        probed config kind (disk.entry ((Location.ofPath root).resolve v).toPath)
      else .error .escapesRoot := by
  rw [answer_verdict, outcome]
  split
  · rfl
  split
  · cases disk.entry ((Location.ofPath root).resolve v).toPath with
    | none => rfl
    | some entry =>
      by_cases h : config.strictKinds && !kind.admits entry <;> simp [probed, h, Except.map]
  · rfl

/-- The outcomes under a relative root and under the same root in full, for paths that are not too
long to be looked up. They are the same exactly of literals with a forbidden character, of those that
leave the root in full, and of those that stay in the relative root and do not lead to the working
directory itself. -/
theorem outcome_relative_root_iff (tree : Node) (dir : List String) (hdir : Tree.Physical tree dir)
    (r v : String) (hr : ¬Path.isAbsolute r) (hv : ¬Path.isAbsolute v) (config : Config)
    (kind : PathKind) :
    let full := Path.join (Location.ofNames dir).toPath r
    let target := (Location.ofPath r).resolve v
    let place := (Location.ofPath full).resolve v
    let said := fun root =>
      outcome (((ofRoot config root).verdict kind v).answer (Tree.disk tree (some dir)))
    target.toPath.utf8ByteSize ≤ Tree.longestPath → place.toPath.utf8ByteSize ≤ Tree.longestPath →
    (said r = said full ↔ Path.hasForbidden v ∨
      (place.within (Location.ofPath full) →
        target.within (Location.ofPath r) ∧ target ≠ Location.here)) := by
  intro full target place said hshort hlong
  have hbase : ¬(Location.ofPath r).absolute := by rwa [Location.absolute_ofPath]
  obtain ⟨hups, habs⟩ := Location.ups_le_resolve (Location.ofPath r) hv
  have htarget : ¬target.absolute := fun h => hbase (habs.symm.trans h)
  have hproper : target.Proper := (Location.proper_ofPath r).resolve v
  have hplace : place = (Location.ofNames dir).resolve target.toPath :=
    Location.resolve_full hdir.isName r v
  have hfull : Location.ofPath full = (Location.ofNames dir).resolve (Location.ofPath r).toPath :=
    Location.resolve_full hdir.isName r ""
  have hwithin : target.within (Location.ofPath r) → place.within (Location.ofPath full) := by
    rw [hplace, hfull]
    exact Location.within_of_relative hproper (Location.proper_ofPath r) htarget hbase hups
  simp only [said, outcome_verdict]
  by_cases hf : Path.hasForbidden v
  · simp [hf]
  rw [if_neg hf, if_neg hf, or_iff_right hf]
  change (if target.within (Location.ofPath r) then _ else _) =
    (if place.within (Location.ofPath full) then _ else _) ↔ _
  by_cases hin : target.within (Location.ofPath r)
  · have hfin := hwithin hin
    rw [if_pos hin, if_pos hfin]
    by_cases hhere : target = .here
    · -- The relative root asks for the empty path, the root in full for a folder that is there.
      have hempty : (Tree.disk tree (some dir)).entry target.toPath = none := by
        rw [hhere]
        exact Tree.entry_empty tree (some dir)
      have hpresent : (Tree.disk tree (some dir)).entry place.toPath = some .folder := by
        rw [hplace, hhere] at hlong ⊢
        exact Tree.entry_directory hdir hlong
      have hdiffer := probed_some_ne_missing config kind .folder
      rw [hempty, hpresent]
      exact iff_of_false hdiffer.symm fun h => (h hfin).2 hhere
    · have hne : target.toPath ≠ "" := by
        intro hempty
        rw [← Location.ofPath_toPath hproper, hempty] at hhere
        exact hhere rfl
      have hentry := Tree.entry_relative hdir hproper htarget hne hshort (hplace ▸ hlong)
      rw [hentry, ← hplace]
      exact iff_of_true rfl fun _ => ⟨hin, hhere⟩
  · rw [if_neg hin]
    by_cases hfin : place.within (Location.ofPath full)
    · -- Only the root in full lets the literal in, and what is probed is never said to leave.
      rw [if_pos hfin]
      exact iff_of_false (probed_ne_escapesRoot config kind _).symm fun h => hin (h hfin).1
    · rw [if_neg hfin]
      exact iff_of_true rfl fun h => absurd h hfin

/-- Under a root above the working directory, a literal that comes back into it is judged as under the
root in full. -/
theorem climbed_root_judged_in_full :
    let tree := Node.folder [("d", .folder [("a", .folder [])])]
    let said := fun root => outcome
      (((ofRoot ⟨.error, true⟩ root).verdict .file "d/b/../a").answer (Tree.disk tree (some ["d"])))
    said ".." = said "/d/.." ∧ said ".." = .error .wrongKind := by
  intro tree said
  have hdir : Tree.Physical tree ["d"] :=
    ⟨by simp [Step.isName_iff], by decide, by decide, [("a", .folder [])], rfl⟩
  constructor
  · exact (outcome_relative_root_iff tree ["d"] hdir ".." "d/b/../a" (by decide) (by decide)
      ⟨.error, true⟩ .file (by decide +kernel) (by decide +kernel)).2
      (.inr fun _ => by decide +kernel)
  · have hparts : Tree.parts "../d/a" = ["..", "d", "a"] := by decide +kernel
    have hwalk : Tree.walk tree Tree.mostLinks ["d"] ["..", "d", "a"] = .ok ["d", "a"] := by
      simp [Tree.walk, Node.at?, Node.child?, Tree.longestName, tree]
      rfl
    have hplace : Tree.place tree (some ["d"]) "../d/a" = .ok ["d", "a"] := by
      rw [← hwalk, ← hparts]
      rfl
    have hentry : (Tree.disk tree (some ["d"])).entry "../d/a" = some .folder := by
      simp only [Tree.disk, Tree.entry, hplace]
      rfl
    have htarget : ((Location.ofPath "..").resolve "d/b/../a").toPath = "../d/a" := by decide +kernel
    have hwithin : ((Location.ofPath "..").resolve "d/b/../a").within (Location.ofPath "..") := by
      decide +kernel
    simp only [said]
    rw [outcome_verdict, if_neg (by decide), if_pos hwithin, htarget, hentry]
    rfl

/-- A folder that is the root is missing where the root is the working directory, written as `.`, and
is there where the same root is written in full. -/
theorem working_directory_is_missed :
    let tree := Node.folder [("d", .folder [])]
    let said := fun root => outcome
      (((ofRoot ⟨.error, false⟩ root).verdict .folder ".").answer (Tree.disk tree (some ["d"])))
    Tree.Physical tree ["d"] ∧ said "." = .error .missing ∧
      said (Path.join (Location.ofNames ["d"]).toPath ".") = .ok () := by
  intro tree said
  have hdir : Tree.Physical tree ["d"] := ⟨by simp [Step.isName_iff], by decide, by decide, [], rfl⟩
  have hempty : ((Location.ofPath ".").resolve ".").toPath = "" := by decide +kernel
  have hfull : (Location.ofPath (Path.join (Location.ofNames ["d"]).toPath ".")).resolve "." =
      Location.ofNames ["d"] := by decide +kernel
  refine ⟨hdir, ?_, ?_⟩
  · simp only [said]
    rw [outcome_verdict, if_neg (by decide), if_pos (by decide +kernel), hempty, Tree.entry_empty]
    rfl
  · simp only [said]
    rw [outcome_verdict, if_neg (by decide), hfull, if_pos (by decide +kernel),
      Tree.entry_directory hdir (by decide +kernel)]
    rfl

end Checker

end PathAudit
