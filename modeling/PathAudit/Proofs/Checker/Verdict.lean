import PathAudit.Checker.Basic
import PathAudit.Proofs.Location.Walk

/-! What is said of a literal. Under an absolute root the place that the literal walks to decides it,
together with the one entry that the disk has there; and the disk is asked only about a place that
lies at or below the root. -/

namespace PathAudit

variable {root v : String} {kind : PathKind} {entry : EntryKind} {config : Config} {disk : Disk}

theorem PathKind.admits_eq_false_iff : kind.admits entry = false ↔
    kind = .file ∧ entry ≠ .file ∨ kind = .folder ∧ entry ≠ .folder := by
  cases kind <;> simp [PathKind.admits]

namespace Checker

/-- What a check with a known root answers. It asks the disk for one entry, once the path is known
to stay within the root. -/
theorem answer_verdict :
    ((ofRoot config root).verdict kind v).answer disk =
      if Path.hasForbidden v then .error .forbiddenCharacters
      else if ((Location.ofPath root).resolve v).within (Location.ofPath root) then
        match disk.entry ((Location.ofPath root).resolve v).toPath with
        | none => .error .missing
        | some entry =>
          if config.strictKinds && !kind.admits entry then .error .wrongKind
          else .ok ((Location.ofPath root).resolve v)
      else .error .escapesRoot := by
  by_cases hf : Path.hasForbidden v
  · simp [verdict, hf]
  by_cases hw : ((Location.ofPath root).resolve v).within (Location.ofPath root)
  · simp only [verdict, ofRoot, hf, hw]
    have hentry (path : String) : (Query.entryAt path).answer disk = disk.entry path := rfl
    show Query.answer disk (Query.entryAt _ >>= _) = _
    rw [Query.answer_bind, hentry]
    cases disk.entry ((Location.ofPath root).resolve v).toPath with
    | none => rfl
    | some entry =>
      by_cases hk : config.strictKinds && !kind.admits entry <;> simp [hk]
  · simp [verdict, ofRoot, hf, hw]

/-- The disk is asked about the place that a literal leads to alone, and only if that lies within
the root. -/
theorem answer_verdict_congr {disk' : Disk}
    (h : ((Location.ofPath root).resolve v).within (Location.ofPath root) → disk'.entry
      ((Location.ofPath root).resolve v).toPath = disk.entry ((Location.ofPath root).resolve v).toPath) :
    ((ofRoot config root).verdict kind v).answer disk' =
      ((ofRoot config root).verdict kind v).answer disk := by
  rw [answer_verdict, answer_verdict]
  by_cases hw : ((Location.ofPath root).resolve v).within (Location.ofPath root)
  · rw [h hw]
  · rw [if_neg hw, if_neg hw]

/-- Under an absolute root, the place that a literal walks to from there decides what is said of
it. The place is a folded one, and the disk has no say by what it holds elsewhere than at or below
the root. -/
theorem verdict_at_walked_place (root value : String) (hroot : Path.isAbsolute root)
    (config : Config) (kind : PathKind) (disk : Disk) :
    let base := Path.walk [] root
    let names := Path.walk base value
    let place := Location.ofNames names
    let verdict := (ofRoot config root).verdict kind value
    let forbidden := ∃ c ∈ value.toList, c ∈ ['<', '>', ':', '"', '|', '?', '*'] ∨ c.toNat ≤ 0x1F
    (forbidden → verdict.answer disk = .error .forbiddenCharacters) ∧
    (¬forbidden → verdict.answer disk =
      if ¬base <+: names then .error .escapesRoot
      else match disk.entry place.toPath with
        | none => .error .missing
        | some entry =>
          if config.strictKinds ∧
              (kind = .file ∧ entry ≠ .file ∨ kind = .folder ∧ entry ≠ .folder) then
            .error .wrongKind
          else .ok place) ∧
    Location.ofPath place.toPath = place ∧
    ∀ disk' : Disk, (∀ below, (∀ n ∈ below, Step.IsName n) →
        disk'.entry (Location.ofNames (base ++ below)).toPath =
          disk.entry (Location.ofNames (base ++ below)).toPath) →
      verdict.answer disk' = verdict.answer disk := by
  intro base names place verdict forbidden
  have hbase : Location.ofPath root = Location.ofNames base := Location.ofPath_eq_walk hroot
  have hplace : (Location.ofPath root).resolve value = place := by
    rw [hbase, Location.resolve_ofNames]
  have hproper : place.Proper := hplace ▸ (Location.proper_ofPath root).resolve value
  have hwithin : place.within (Location.ofPath root) ↔ base <+: names := by
    rw [hbase, Location.within_ofNames]
  refine ⟨fun hforbidden => ?_, fun hplain => ?_, Location.ofPath_toPath hproper, ?_⟩
  · rw [answer_verdict, if_pos (Path.hasForbidden_iff.2 hforbidden)]
  · rw [answer_verdict, if_neg (mt Path.hasForbidden_iff.1 hplain), hplace]
    simp only [hwithin, ite_not, Bool.and_eq_true, Bool.not_eq_true', PathKind.admits_eq_false_iff]
  · intro disk' hagree
    apply answer_verdict_congr
    rw [hplace, hwithin]
    rintro ⟨below, hbelow⟩
    have hnames : ∀ n ∈ below, Step.IsName n := by
      intro n hn
      apply hproper n
      show n ∈ names
      rw [← hbelow]
      exact List.mem_append_right base hn
    have hentry := hagree below hnames
    rwa [hbelow] at hentry

/-- A literal that leaves the root and comes back is judged where it ends, and whatever else there
is beside the root. -/
theorem detour_judged_where_it_ends :
    let disk : Disk :=
      ⟨fun path => if path = "/work/app/src" then some .folder else none, fun _ => .ok "",
        .ok Location.top⟩
    let crowded : Disk :=
      ⟨fun path => if path = "/work/app-evil" then some .file else disk.entry path, fun _ => .ok "x",
        .error .notFound⟩
    let verdict := (ofRoot ⟨.error, true⟩ "/work/./app/").verdict .file "../app-evil/../app//src/."
    verdict.answer disk = .error .wrongKind ∧ verdict.answer crowded = .error .wrongKind := by
  intro disk crowded verdict
  have h := verdict_at_walked_place "/work/./app/" "../app-evil/../app//src/." (by decide)
    ⟨.error, true⟩ .file disk
  have hdisk : verdict.answer disk = .error .wrongKind :=
    (h.2.1 (mt Path.hasForbidden_iff.2 (by decide))).trans rfl
  have hroot : ∀ n ∈ ["work", "app"], Step.IsName n := by
    unfold Step.IsName
    decide
  have hbase : Path.walk [] "/work/./app/" = ["work", "app"] := by decide +kernel
  refine ⟨hdisk, Eq.trans (h.2.2.2 crowded ?_) hdisk⟩
  intro below hbelow
  rw [hbase]
  have hproper : (Location.ofNames (["work", "app"] ++ below)).Proper :=
    fun n hn => (List.mem_append.1 hn).elim (hroot n) (hbelow n)
  have hbeside : (Location.ofNames (["work", "app"] ++ below)).toPath ≠ "/work/app-evil" := by
    intro hevil
    have hfolded : Location.ofNames (["work", "app"] ++ below) =
        Location.ofNames ["work", "app-evil"] :=
      (Location.ofPath_toPath hproper).symm.trans (congrArg Location.ofPath hevil)
    have hnames := congrArg Location.names hfolded
    simp [Location.ofNames] at hnames
  exact if_neg hbeside

end Checker

end PathAudit
