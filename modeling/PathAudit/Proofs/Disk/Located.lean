import PathAudit.Disk.Basic
import PathAudit.Proofs.Location.Walk

/-! Where a disk locates paths. A relative path is taken from the working directory, which is an
absolute location, so every path that has a location has an absolute one, written by names. -/

namespace PathAudit

variable {disk : Disk} {l : Location} {path : String}

theorem Path.ne_empty_of_isAbsolute (h : Path.isAbsolute path) : path ≠ "" := by
  intro hempty
  rw [hempty] at h
  exact absurd h (by decide)

/-- Holds of a disk whose working directory, if there is one, has an absolute path. -/
def Disk.Rooted (disk : Disk) : Prop :=
  ∀ dir, disk.workingDirectory = .ok dir → ∃ path, Path.isAbsolute path ∧ dir = Location.ofPath path

/-- A disk that is seen from the end of some names is such a disk. -/
theorem Disk.rooted_of_names {names : List String}
    (hdir : disk.workingDirectory = .ok (Location.ofNames names)) (h : ∀ n ∈ names, Step.IsName n) :
    disk.Rooted := by
  intro dir hdir'
  rw [hdir] at hdir'
  cases hdir'
  have hproper : (Location.ofNames names).Proper := h
  exact ⟨_, Location.isAbsolute_toPath hproper, (Location.ofPath_toPath hproper).symm⟩

theorem Query.answer_locate_eq_ok (h : (Query.locate path).answer disk = .ok l) :
    Path.isAbsolute path ∧ l = Location.ofPath path ∨
      ¬Path.isAbsolute path ∧ ∃ dir, disk.workingDirectory = .ok dir ∧ l = dir.resolve path := by
  unfold Query.locate at h
  split at h
  · cases h
  split at h
  · next habs =>
    cases h
    exact .inl ⟨habs, rfl⟩
  · next hrel =>
    refine .inr ⟨hrel, ?_⟩
    change disk.workingDirectory.map _ = _ at h
    cases hdir : disk.workingDirectory with
    | error e => simp [hdir, Except.map] at h
    | ok dir =>
      rw [hdir] at h
      cases h
      exact ⟨dir, rfl, rfl⟩

theorem Query.answer_locate_eq_error_iff {e : DiskError} :
    (Query.locate path).answer disk = .error e ↔ path = "" ∧ e = .emptyPath ∨
      path ≠ "" ∧ ¬Path.isAbsolute path ∧ disk.workingDirectory = .error e := by
  unfold Query.locate
  by_cases hpath : path = ""
  · rw [if_pos (String.isEmpty_iff.2 hpath)]
    constructor
    · rintro ⟨⟩
      exact .inl ⟨hpath, rfl⟩
    · rintro (⟨-, rfl⟩ | ⟨hne, -⟩)
      · rfl
      · exact absurd hpath hne
  · rw [if_neg (mt String.isEmpty_iff.1 hpath)]
    split
    · next habs => exact ⟨nofun, by simp [hpath, habs]⟩
    · next hrelative =>
      change disk.workingDirectory.map _ = _ ↔ _
      cases disk.workingDirectory <;> simp [Except.map, hpath, hrelative]

/-- Every location of a path is absolute, and its names are names. -/
theorem Disk.Rooted.locate (hdisk : disk.Rooted) (h : (Query.locate path).answer disk = .ok l) :
    l.absolute ∧ l.Proper := by
  rcases Query.answer_locate_eq_ok h with ⟨habs, rfl⟩ | ⟨-, dir, hdir, rfl⟩
  · exact ⟨Location.ofPath_absolute habs, Location.proper_ofPath path⟩
  · obtain ⟨dirPath, habs, rfl⟩ := hdisk dir hdir
    exact ⟨Location.resolve_absolute path (Location.ofPath_absolute habs),
      (Location.proper_ofPath dirPath).resolve path⟩

/-- The location of a path is that of an absolute text: the path itself, or the path joined to the
text of the working directory. -/
theorem Disk.Rooted.exists_text (hdisk : disk.Rooted)
    (h : (Query.locate path).answer disk = .ok l) :
    ∃ text, Path.isAbsolute text ∧ l = Location.ofPath text ∧
      (text = path ∨ ¬Path.isAbsolute path ∧
        ∃ dir, disk.workingDirectory = .ok dir ∧ text = Path.join dir.toPath path) := by
  rcases Query.answer_locate_eq_ok h with ⟨habs, hl⟩ | ⟨hrel, dir, hdir, hl⟩
  · exact ⟨path, habs, hl, .inl rfl⟩
  · obtain ⟨dirPath, habs, hdirPath⟩ := hdisk dir hdir
    have hproper : dir.Proper := hdirPath ▸ Location.proper_ofPath dirPath
    have hdirAbs : dir.absolute := hdirPath ▸ Location.ofPath_absolute habs
    refine ⟨Path.join dir.toPath path, ?_, ?_, .inr ⟨hrel, dir, hdir, rfl⟩⟩
    · have hslash : Path.isAbsolute dir.toPath := (Location.isAbsolute_toPath hproper).trans hdirAbs
      have hne : dir.toPath ≠ "" := Path.ne_empty_of_isAbsolute hslash
      rw [Path.join, if_neg hrel]
      split
      · rwa [Path.isAbsolute_append hne]
      · rwa [String.append_assoc, Path.isAbsolute_append hne]
    · rw [Location.ofPath_join, Location.ofPath_toPath hproper, hl]

theorem Query.answer_locate_toPath (habs : l.absolute) (hproper : l.Proper) :
    (Query.locate l.toPath).answer disk = .ok l := by
  have hslash : Path.isAbsolute l.toPath := (Location.isAbsolute_toPath hproper).trans habs
  have hne : ¬l.toPath.isEmpty := by
    rw [String.isEmpty_iff]
    exact Path.ne_empty_of_isAbsolute hslash
  rw [Query.locate, if_neg hne, if_pos hslash, Location.ofPath_toPath hproper]
  rfl

end PathAudit
