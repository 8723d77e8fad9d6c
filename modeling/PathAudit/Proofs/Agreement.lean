import Mathlib.Data.List.TakeWhile
import PathAudit.Proofs.Checker.Verdict
import PathAudit.Validator

/-! The check of literals and the validation of values agree on forbidden characters and on
containment. They tell in different ways whether a path stays within the project root, and the
validation asks only of paths that begin with `./` or `../`. -/

namespace PathAudit

variable {root v : String} {kind : PathKind} {message : Option String} {config : Config}
  {disk : Disk}

theorem Text.trim_eq_nil_iff {s : List Char} : Text.trim s = [] ↔ ∀ c ∈ s, Text.isBlank c := by
  rw [trim, trimEnd, List.reverse_eq_nil_iff, List.dropWhile_eq_nil_iff]
  simp only [List.mem_reverse]
  constructor
  · intro hrest c hc
    rw [← List.takeWhile_append_dropWhile (p := isBlank) (l := s)] at hc
    rcases List.mem_append.1 hc with hc | hc
    · exact List.all_eq_true.1 List.all_takeWhile c hc
    · exact hrest c hc
  · exact fun hall c hc => hall c ((List.dropWhile_sublist isBlank).subset hc)

/-- What a validation with a known root answers to a value that is not blank. It asks nothing of
the disk. -/
theorem Validator.answer_validate (hv : Text.trim v.toList ≠ []) :
    ((ofRoot root).validate kind v message).answer disk =
      if Path.hasForbidden v then .error (.forbiddenCharacters (message.getD kind.defaultMessage))
      else if Path.isDotted v ∧
          ¬((Location.ofPath root).resolve v).startsWith (Location.ofPath root) then
        .error (.escapesRoot (message.getD kind.defaultMessage))
      else .ok v := by
  have hblank : (Text.trim v.toList).isEmpty = false := by simpa using hv
  by_cases hf : Path.hasForbidden v
  · simp [validate, hblank, hf]
  by_cases hd : Path.isDotted v
  · by_cases hs : ((Location.ofPath root).resolve v).startsWith (Location.ofPath root) <;>
      simp [validate, containingRoot, ofRoot, hblank, hf, hd, hs]
  · simp [validate, hblank, hf, hd]

/-- Under an absolute root, the check of a literal and the validation of the same text as a value
find forbidden characters in the same texts, and find the same dotted paths to escape; and what
the check rejects for neither reason, the validation answers unchanged. -/
theorem check_agrees_with_validation (root v : String) (hroot : Path.isAbsolute root)
    (hv : Text.trim v.toList ≠ []) (config : Config) (kind : PathKind) (message : Option String)
    (disk : Disk) :
    let checked := ((Checker.ofRoot config root).verdict kind v).answer disk
    let validated := ((Validator.ofRoot root).validate kind v message).answer disk
    ((∃ text, validated = .error (.forbiddenCharacters text)) ↔
      checked = .error .forbiddenCharacters) ∧
    (Path.isDotted v → ¬Path.hasForbidden v →
      ((∃ text, validated = .error (.escapesRoot text)) ↔ checked = .error .escapesRoot)) ∧
    (checked ≠ .error .forbiddenCharacters → checked ≠ .error .escapesRoot →
      validated = .ok v) := by
  have habs : (Location.ofPath root).absolute := Location.ofPath_absolute hroot
  have hwithin := Location.within_eq_startsWith (Location.resolve_absolute v habs) habs
  simp only [Checker.answer_verdict, Validator.answer_validate hv, hwithin]
  by_cases hf : Path.hasForbidden v
  · simp [hf]
  by_cases hs : ((Location.ofPath root).resolve v).startsWith (Location.ofPath root)
  · cases disk.entry ((Location.ofPath root).resolve v).toPath with
    | none => simp [hf, hs]
    | some entry => by_cases hk : config.strictKinds && !kind.admits entry <;> simp [hf, hs, hk]
  · by_cases hd : Path.isDotted v <;> simp [hf, hs, hd]

/-- A sibling whose name begins as the root's does escapes, and a path that leaves the root and
comes back does not. -/
theorem sibling_escapes_and_detour_stays :
    let disk : Disk := ⟨fun _ => some .file, fun _ => .ok "", .ok Location.top⟩
    (∃ text, ((Validator.ofRoot "/work/app").validate .any "../app-evil/x" none).answer disk =
      .error (.escapesRoot text)) ∧
    ((Validator.ofRoot "/work/app").validate .any "../x/.././app//src" none).answer disk =
      .ok "../x/.././app//src" := by
  intro disk
  have sibling := check_agrees_with_validation "/work/app" "../app-evil/x" (by decide)
    (by decide) .default .any none disk
  have detour := check_agrees_with_validation "/work/app" "../x/.././app//src" (by decide)
    (by decide) .default .any none disk
  have hchecked : ((Checker.ofRoot .default "/work/app").verdict .any "../x/.././app//src").answer
      disk = .ok (Location.ofNames ["work", "app", "src"]) := rfl
  rw [hchecked] at detour
  exact ⟨(sibling.2.1 (by decide) (by decide)).2 rfl, detour.2.2 nofun nofun⟩

end PathAudit
