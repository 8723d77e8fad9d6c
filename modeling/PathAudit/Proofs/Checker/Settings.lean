import Mathlib.Data.List.Forall2
import PathAudit.Proofs.Checker.Verdict
import PathAudit.Proofs.Service.Places

/-! What the settings change in the findings about a source. The severity gives them their category and
nothing else. Strict kinds are asked about last, when the literal has no other fault, so they add the
findings about entries of the wrong kind and touch no other. -/

namespace PathAudit

variable {root : String} {disk : Disk} {config : Config} {d : PathDeclaration}

/-- Two findings that differ at most in their category. -/
structure Diagnostic.SameButCategory (a b : Diagnostic) : Prop where
  code : a.code = b.code
  message : a.message = b.message
  fileName : a.fileName = b.fileName
  extent : a.extent = b.extent

def PathKind.misses (kind : PathKind) (entry : EntryKind) : Bool :=
  kind == .file && entry != .file || kind == .folder && entry != .folder

/-- Holds of a declaration whose target lies within the root and exists, but is of the wrong kind. -/
def PathDeclaration.isMisnamed (d : PathDeclaration) (root : Location) (disk : Disk) : Bool :=
  (root.resolve d.value).within root &&
    (disk.entry (root.resolve d.value).toPath).any d.kind.misses

theorem PathKind.admits_eq_not_misses (kind : PathKind) (entry : EntryKind) :
    kind.admits entry = !kind.misses entry := by
  cases kind <;> cases entry <;> rfl

/-- Among what is picked by `p`, what is not picked by `q` too, when no two elements look the same. -/
theorem filter_map_filter_not_mem {α β : Type} [DecidableEq β] {f : α → β} {l : List α}
    (h : (l.map f).Nodup) (p q : α → Bool) :
    ((l.filter p).map f).filter (· ∉ (l.filter q).map f) = (l.filter fun a => p a && !q a).map f := by
  rw [List.filter_map, List.filter_filter]
  congr 1
  apply List.filter_congr
  intro a ha
  have hmem : f a ∈ (l.filter q).map f ↔ q a := by
    constructor
    · intro hfa
      obtain ⟨b, hb, hba⟩ := List.mem_map.1 hfa
      obtain ⟨hbl, hqb⟩ := List.mem_filter.1 hb
      rwa [← List.inj_on_of_nodup_map h hbl ha hba]
    · intro hqa
      exact List.mem_map_of_mem (List.mem_filter.2 ⟨ha, hqa⟩)
  simp only [Function.comp_apply, hmem]
  cases p a <;> cases q a <;> rfl

namespace Checker

/-- What makes a literal be rejected, in the order in which it is looked for. -/
theorem rejects_eq : (ofRoot config root).rejects disk d =
    (Path.hasForbidden d.value ||
      !((Location.ofPath root).resolve d.value).within (Location.ofPath root) ||
      (disk.entry ((Location.ofPath root).resolve d.value).toPath).all fun entry =>
        config.strictKinds && d.kind.misses entry) := by
  rw [rejects, answer_verdict]
  by_cases hforbidden : Path.hasForbidden d.value
  · simp [hforbidden, Except.isOk, Except.toBool]
  by_cases hwithin : ((Location.ofPath root).resolve d.value).within (Location.ofPath root)
  · simp only [hforbidden, hwithin]
    cases disk.entry ((Location.ofPath root).resolve d.value).toPath with
    | none => rfl
    | some entry =>
      by_cases hkind : config.strictKinds && d.kind.misses entry
      · simp [PathKind.admits_eq_not_misses, hkind, Except.isOk, Except.toBool]
      · simp [PathKind.admits_eq_not_misses, hkind, Except.isOk, Except.toBool]
  · simp [hforbidden, hwithin, Except.isOk, Except.toBool]

theorem rejects_severity (severity severity' : Severity) (strict : Bool) :
    (ofRoot ⟨severity, strict⟩ root).rejects disk d =
      (ofRoot ⟨severity', strict⟩ root).rejects disk d := by
  rw [rejects_eq, rejects_eq]

theorem rejects_strict_of_lax (severity : Severity)
    (h : (ofRoot ⟨severity, false⟩ root).rejects disk d) :
    (ofRoot ⟨severity, true⟩ root).rejects disk d := by
  rw [rejects_eq, Bool.or_eq_true] at h ⊢
  rcases h with h | h
  · exact .inl h
  · -- without strict kinds, only an entry that is missing is rejected
    cases hentry : disk.entry ((Location.ofPath root).resolve d.value).toPath with
    | none => exact .inr rfl
    | some entry => simp [hentry] at h

theorem rejects_strict_only (severity : Severity) :
    ((ofRoot ⟨severity, true⟩ root).rejects disk d && !(ofRoot ⟨severity, false⟩ root).rejects disk d) =
      (!Path.hasForbidden d.value && d.isMisnamed (Location.ofPath root) disk) := by
  rw [rejects_eq, rejects_eq, PathDeclaration.isMisnamed]
  cases Path.hasForbidden d.value
  · cases ((Location.ofPath root).resolve d.value).within (Location.ofPath root)
    · rfl
    · cases disk.entry ((Location.ofPath root).resolve d.value).toPath <;> simp
  · rfl

/-- No two path declarations of a text give the same finding. -/
theorem nodup_map_finding (c : Checker) (name text : String) :
    ((Parsed.ofText text).outline.pathDeclarations.map (c.finding name)).Nodup := by
  rw [List.Nodup, List.pairwise_map]
  refine (PathDeclaration.pairwise_pathDeclarations text).imp ?_
  intro a b hab he
  have hstart : a.span.start = b.span.start := by
    have := congrArg Diagnostic.extent he
    simpa [finding, Extent.ofSpan] using congrArg (Option.map Extent.start) this
  omega

/-- Another severity gives the findings another category and leaves the rest of each as it is. Strict
kinds take no finding away, and those that they add are about the declarations, without a forbidden
character in their literal, whose target within the root exists and is of the wrong kind. -/
theorem settings_relabel_or_add (root : String) (source : Source) (disk : Disk) :
    let found := fun severity strict =>
      ((ofRoot ⟨severity, strict⟩ root).findingsIn source).answer disk
    (∀ severity severity' strict, List.Forall₂ Diagnostic.SameButCategory (found severity strict)
      (found severity' strict)) ∧
    ∀ severity, (found severity false).Sublist (found severity true) ∧ (found severity true).Nodup ∧
      (found severity true).filter (· ∉ found severity false) =
        (source.outline.pathDeclarations.filter fun d =>
          !Path.hasForbidden d.value && d.isMisnamed (Location.ofPath root) disk).map
            ((ofRoot ⟨severity, true⟩ root).finding source.name) := by
  intro found
  have hfound (severity : Severity) (strict : Bool) : found severity strict =
      (source.outline.pathDeclarations.filter ((ofRoot ⟨severity, strict⟩ root).rejects disk)).map
        ((ofRoot ⟨severity, strict⟩ root).finding source.name) :=
    answer_findingsIn _ source
  constructor
  · intro severity severity' strict
    have hsame : (ofRoot ⟨severity, strict⟩ root).rejects disk =
        (ofRoot ⟨severity', strict⟩ root).rejects disk :=
      funext fun _ => rejects_severity severity severity' strict
    rw [hfound, hfound, hsame, List.forall₂_map_left_iff, List.forall₂_map_right_iff,
      List.forall₂_same]
    intro d _
    exact ⟨rfl, rfl, rfl, rfl⟩
  · intro severity
    -- the settings of a finding are those of its category, so strict kinds leave it as it is
    have hfinding : (ofRoot ⟨severity, false⟩ root).finding source.name =
        (ofRoot ⟨severity, true⟩ root).finding source.name := rfl
    have hnodup : (source.outline.pathDeclarations.map
        ((ofRoot ⟨severity, true⟩ root).finding source.name)).Nodup :=
      nodup_map_finding _ source.name source.text
    rw [hfound, hfound, hfinding]
    refine ⟨?_, ?_, ?_⟩
    · apply List.Sublist.map
      apply List.monotone_filter_right
      intro d hd
      exact rejects_strict_of_lax severity hd
    · exact hnodup.sublist (List.filter_sublist.map _)
    · rw [filter_map_filter_not_mem hnodup]
      congr 1
      apply List.filter_congr
      intro d _
      exact rejects_strict_only severity

def wildDeclaration : Source := ⟨"a.ts", "const p: FilePathStr = \"a?b\";"⟩

def wildFolder : Disk where
  entry path := if path = "/r/a?b" then some .folder else none
  text _ := .error .notFound
  workingDirectory := .ok (Location.ofNames ["r"])

theorem pathDeclarations_wildDeclaration :
    wildDeclaration.outline.pathDeclarations = [⟨.file, "p", "a?b", ⟨23, 28⟩⟩] := by
  have hscan : Scan.ofText wildDeclaration.text = ⟨[⟨.keyword .const, ⟨0, 5⟩⟩,
      ⟨.identifier "p", ⟨6, 7⟩⟩, ⟨.punctuation .colon, ⟨7, 8⟩⟩, ⟨.identifier "FilePathStr", ⟨9, 20⟩⟩,
      ⟨.punctuation .equals, ⟨21, 22⟩⟩, ⟨.string "a?b", ⟨23, 28⟩⟩,
      ⟨.punctuation .semicolon, ⟨28, 29⟩⟩], []⟩ := by
    decide +kernel
  rw [Source.outline, Parsed.ofText, hscan]
  cbv

/-- The folder is the target of the declaration, within the root, and no file; but the finding is there
without strict kinds as well, for the forbidden character, and is none that they add. -/
theorem wild_folder_adds_nothing :
    let found := fun strict =>
      ((ofRoot ⟨.error, strict⟩ "/r").findingsIn wildDeclaration).answer wildFolder
    let misnamed := wildDeclaration.outline.pathDeclarations.filter
      (·.isMisnamed (Location.ofPath "/r") wildFolder)
    misnamed = [⟨.file, "p", "a?b", ⟨23, 28⟩⟩] ∧
    (found false).length = 1 ∧ found true = found false ∧
    (found true).filter (· ∉ found false) ≠
      misnamed.map ((ofRoot ⟨.error, true⟩ "/r").finding wildDeclaration.name) := by
  intro found misnamed
  have hmisnamed : misnamed = [⟨.file, "p", "a?b", ⟨23, 28⟩⟩] := by
    simp only [misnamed, pathDeclarations_wildDeclaration]
    decide +kernel
  have hfound (strict : Bool) : found strict =
      [(ofRoot ⟨.error, true⟩ "/r").finding "a.ts" ⟨.file, "p", "a?b", ⟨23, 28⟩⟩] := by
    have hrejected : (ofRoot ⟨.error, strict⟩ "/r").rejects wildFolder
        ⟨.file, "p", "a?b", ⟨23, 28⟩⟩ := by rfl
    rw [show found strict = _ from answer_findingsIn _ _, rejectedIn,
      ← Source.outline, pathDeclarations_wildDeclaration, List.filter_cons, hrejected]
    rfl
  refine ⟨hmisnamed, ?_, ?_, ?_⟩
  · rw [hfound]
    rfl
  · rw [hfound, hfound]
  · rw [hfound, hfound, hmisnamed]
    simp

end Checker

end PathAudit
