import PathAudit.Proofs.Containment
import PathAudit.Proofs.ProjectRoot

/-! When a validation without a known root looks for one. The text of a candidate settles all checks
but the last, so of most candidates the disk is asked nothing. Only a candidate that begins with `./`
or `../` and passes the other checks makes the validation look for the project root of the working
directory, and then it is validated as with that root. -/

namespace PathAudit

inductive Question
  | entry (path : String)
  | text (path : String)
  | workingDirectory

namespace Query

variable {α β : Type}

/-- The questions that a computation asks a disk, in their order. -/
def asked (disk : Disk) : Query α → List Question
  | done _ => []
  | entry path next => .entry path :: (next (disk.entry path)).asked disk
  | text path next => .text path :: (next (disk.text path)).asked disk
  | workingDirectory next => .workingDirectory :: (next disk.workingDirectory).asked disk

@[simp] theorem asked_pure (disk : Disk) (a : α) : asked disk (pure a) = [] := rfl

@[simp] theorem asked_bind (disk : Disk) (q : Query α) (f : α → Query β) :
    asked disk (q >>= f) = asked disk q ++ asked disk (f (answer disk q)) := by
  show asked disk (q.bind f) = _
  induction q with
  | done a => rfl
  | entry path next ih => exact congrArg (Question.entry path :: ·) (ih _)
  | text path next ih => exact congrArg (Question.text path :: ·) (ih _)
  | workingDirectory next ih => exact congrArg (Question.workingDirectory :: ·) (ih _)

end Query

variable {path candidate : String} {kind : PathKind} {message : Option String} {disk : Disk}

namespace Path

theorem isDotted_iff : isDotted path ↔
    "./".toList <+: path.toList ∨ "../".toList <+: path.toList := by
  rw [isDotted, Bool.or_eq_true, List.isPrefixOf_iff_prefix, List.isPrefixOf_iff_prefix]
  rfl

end Path

namespace Validator

theorem rootless_validate_dotted (hforbidden : ¬Path.hasForbidden candidate)
    (hdotted : Path.isDotted candidate) :
    rootless.validate kind candidate message = ProjectRoot.current >>= fun found =>
      match found with
      | .error e => pure (.error (.root e))
      | .ok root =>
        if (root.resolve candidate).startsWith root then pure (.ok candidate)
        else pure (.error (.escapesRoot (message.getD kind.defaultMessage))) := by
  have hblank : (Text.trim candidate.toList).isEmpty = false := by
    simpa using Path.trim_ne_nil_of_isDotted hdotted
  simp only [validate, hblank, hforbidden, hdotted, rootless, containingRoot]
  rfl

theorem asked_rootless_dotted (disk : Disk) (hforbidden : ¬Path.hasForbidden candidate)
    (hdotted : Path.isDotted candidate) :
    (rootless.validate kind candidate message).asked disk = ProjectRoot.current.asked disk := by
  rw [rootless_validate_dotted hforbidden hdotted, Query.asked_bind]
  cases ProjectRoot.current.answer disk with
  | error e => exact List.append_nil _
  | ok root => by_cases hstarts : (root.resolve candidate).startsWith root <;> simp [hstarts]

/-- With a project root of the working directory, the last check is that of the validator that is
bound to this root; without one, the validation fails for the same reason as the search. -/
theorem answer_rootless_dotted (hdisk : disk.Rooted) (hforbidden : ¬Path.hasForbidden candidate)
    (hdotted : Path.isDotted candidate) :
    (rootless.validate kind candidate message).answer disk =
      match ProjectRoot.current.answer disk with
      | .error e => .error (.root e)
      | .ok root => ((ofRoot root.toPath).validate kind candidate message).answer disk := by
  rw [rootless_validate_dotted hforbidden hdotted, Query.answer_bind]
  cases hroot : ProjectRoot.current.answer disk with
  | error e => rfl
  | ok root =>
    obtain ⟨dir, hdir, hnearest⟩ := (ProjectRoot.answer_current_eq_ok_iff hdisk).1 hroot
    obtain ⟨path, -, rfl⟩ := hdisk dir hdir
    have hfolded : Location.ofPath root.toPath = root :=
      Location.ofPath_toPath (hnearest.above.proper (Location.proper_ofPath path))
    have hblank := Path.trim_ne_nil_of_isDotted hdotted
    simp only [answer_validate hblank, hfolded]
    by_cases hstarts : (root.resolve candidate).startsWith root <;>
      simp [hforbidden, hdotted, hstarts]

/-- The first three checks ask nothing and answer the same everywhere, whether or not there is a
working directory. Where none of them settles it, the validation asks for the project root of the
working directory, answers what the validator bound to this root does, and fails for want of a root
exactly where none can be found. -/
theorem rootless_asks_last (kind : PathKind) (message : Option String) (candidate : String) :
    let text := message.getD kind.defaultMessage
    let validated := rootless.validate kind candidate message
    let blank := ∀ c ∈ candidate.toList, Text.isBlank c
    let forbidden :=
      ∃ c ∈ candidate.toList, c ∈ ['<', '>', ':', '"', '|', '?', '*'] ∨ c.toNat ≤ 0x1F
    let dotted := "./".toList <+: candidate.toList ∨ "../".toList <+: candidate.toList
    (blank → ∀ disk, validated.asked disk = [] ∧
      validated.answer disk = .error (.blank text)) ∧
    (¬blank → forbidden → ∀ disk, validated.asked disk = [] ∧
      validated.answer disk = .error (.forbiddenCharacters text)) ∧
    (¬blank → ¬forbidden → ¬dotted → ∀ disk, validated.asked disk = [] ∧
      validated.answer disk = .ok candidate) ∧
    (¬blank → ¬forbidden → dotted → ∀ disk, disk.Rooted →
      validated.asked disk = ProjectRoot.current.asked disk ∧
      (∀ root, ProjectRoot.current.answer disk = .ok root → validated.answer disk =
        ((ofRoot root.toPath).validate kind candidate message).answer disk) ∧
      ∀ e, (validated.answer disk = .error (.root e) ↔
          ProjectRoot.current.answer disk = .error e) ∧
        (ProjectRoot.current.answer disk = .error e ↔ ProjectRoot.Unresolved disk e)) := by
  intro text validated blank forbidden dotted
  have hblank : blank ↔ (Text.trim candidate.toList).isEmpty := by
    rw [List.isEmpty_iff, Text.trim_eq_nil_iff]
  have hforbidden : forbidden ↔ Path.hasForbidden candidate := Path.hasForbidden_iff.symm
  have hdotted : dotted ↔ Path.isDotted candidate := Path.isDotted_iff.symm
  simp only [hblank, hforbidden, hdotted]
  refine ⟨?_, ?_, ?_, ?_⟩
  · intro hb disk
    have hsettled : validated = pure (.error (.blank text)) := by
      simp [validated, validate, hb, text]
    rw [hsettled]
    exact ⟨rfl, rfl⟩
  · intro hb hf disk
    have hsettled : validated = pure (.error (.forbiddenCharacters text)) := by
      simp [validated, validate, hb, hf, text]
    rw [hsettled]
    exact ⟨rfl, rfl⟩
  · intro hb hf hd disk
    have hsettled : validated = pure (.ok candidate) := by
      simp [validated, validate, hb, hf, hd]
    rw [hsettled]
    exact ⟨rfl, rfl⟩
  · intro _ hf hd disk hdisk
    have hanswer : validated.answer disk = _ := answer_rootless_dotted hdisk hf hd
    refine ⟨asked_rootless_dotted disk hf hd, ?_, ?_⟩
    · intro root hroot
      rw [hanswer, hroot]
    · intro e
      refine ⟨?_, ProjectRoot.answer_current_eq_error_iff hdisk⟩
      rw [hanswer]
      cases ProjectRoot.current.answer disk with
      | error e' => simp
      | ok root =>
        show Query.answer disk _ = _ ↔ _
        rw [answer_validate (Path.trim_ne_nil_of_isDotted hd)]
        by_cases hstarts : ((Location.ofPath root.toPath).resolve candidate).startsWith
          (Location.ofPath root.toPath) <;> simp [hf, hd, hstarts]

/-- Blanks come before control characters and these before containment, wherever the validation runs;
a path that climbs only later is plain. The last check fails by the root that it finds, or for want
of a working directory. -/
theorem root_is_sought_last :
    let homeless : Disk := { ProjectRoot.nested with workingDirectory := .error .notFound }
    (∀ disk, (rootless.validate .any "\t\u00a0" none).answer disk = .error (.blank "Invalid path")) ∧
    (∀ disk, (rootless.validate .any "../../a\t" none).answer disk =
      .error (.forbiddenCharacters "Invalid path")) ∧
    (∀ disk, (rootless.validate .any "a/../../b" none).answer disk = .ok "a/../../b") ∧
    (rootless.validate .any "../b" (some "out")).answer ProjectRoot.nested =
      .error (.escapesRoot "out") ∧
    (rootless.validate .any "../b" none).answer homeless =
      .error (.root (.currentDirectory .notFound)) := by
  intro homeless
  have hhomeless : homeless.Rooted := fun _ hdir => nomatch hdir
  have hroot : ProjectRoot.current.answer ProjectRoot.nested = .ok (.ofNames ["work"]) := by rfl
  have hnone : ProjectRoot.current.answer homeless = .error (.currentDirectory .notFound) := rfl
  have hname : ¬∀ c ∈ "../b".toList, Text.isBlank c := mt Text.trim_eq_nil_iff.2 (by decide)
  have hplain := mt (@Path.hasForbidden_iff "../b").2 (by decide)
  refine ⟨fun disk => ?_, fun disk => ?_, fun disk => ?_, ?_, ?_⟩
  · exact ((rootless_asks_last .any none "\t\u00a0").1 (Text.trim_eq_nil_iff.1 (by decide)) disk).2
  · exact ((rootless_asks_last .any none "../../a\t").2.1 (mt Text.trim_eq_nil_iff.2 (by decide))
      (Path.hasForbidden_iff.1 (by decide)) disk).2
  · exact ((rootless_asks_last .any none "a/../../b").2.2.1
      (mt Text.trim_eq_nil_iff.2 (by decide)) (mt Path.hasForbidden_iff.2 (by decide))
      (by decide) disk).2
  · have hlast := (rootless_asks_last .any (some "out") "../b").2.2.2 hname hplain (by decide) _
      ProjectRoot.rooted_nested
    exact (hlast.2.1 _ hroot).trans rfl
  · have hlast := (rootless_asks_last .any none "../b").2.2.2 hname hplain (by decide) _ hhomeless
    exact (hlast.2.2 _).1.2 hnone

end Validator

end PathAudit
