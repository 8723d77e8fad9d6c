import PathAudit.ProjectRoot
import PathAudit.Proofs.Disk.Located
import PathAudit.Proofs.Location.Chain

/-! The search for a project root finds the nearest place with a marker on the chain from its start
up to the file system's root. From each place between the two the search therefore ends at the same
root, and it fails only where no place on the chain has a marker. -/

namespace PathAudit.ProjectRoot

variable {disk : Disk} {l d r : Location} {e : RootError} {start : String}

def marked (disk : Disk) (d : Location) : Bool :=
  markers.any fun m => (disk.entry (d.child m).toPath).isSome

/-- Holds of the lowest place with a marker at or above `l`. -/
structure Nearest (disk : Disk) (l r : Location) : Prop where
  above : r.AtOrAbove l
  marked : marked disk r
  first : ∀ d, d.AtOrAbove l → r.AtOrAbove d → d ≠ r → ¬ProjectRoot.marked disk d

/-- The nearest place is also the nearest from each place on the way to it. -/
theorem Nearest.between (hr : Nearest disk l r) (hd : d.AtOrAbove l) (hrd : r.AtOrAbove d) :
    Nearest disk d r where
  above := hrd
  marked := hr.marked
  first c hc hrc := hr.first c (hc.trans hd) hrc

/-- There is at most one nearest place, as one of two would be above the other. -/
theorem Nearest.unique (h : l.absolute) (hr : Nearest disk l r) (hd : Nearest disk l d) : r = d := by
  by_cases heq : r = d
  · exact heq
  rcases hr.above.total h hd.above with hrd | hdr
  · exact absurd hd.marked (hr.first d hd.above hrd (Ne.symm heq))
  · exact absurd hr.marked (hd.first r hr.above hdr heq)

theorem answer_holdsAny (names : List String) : (holdsAny d names).answer disk =
    names.any fun m => (disk.entry (d.child m).toPath).isSome := by
  induction names with
  | nil => rfl
  | cons name names ih =>
    have hasked (path : String) : (Query.entryAt path).answer disk = disk.entry path := rfl
    rw [holdsAny, Query.answer_bind, hasked, List.any_cons]
    cases (disk.entry (d.child name).toPath).isSome with
    | true => rfl
    | false => exact ih

theorem answer_firstMarked (ls : List Location) :
    (firstMarked ls).answer disk = ls.find? (marked disk) := by
  induction ls with
  | nil => rfl
  | cons l ls ih =>
    rw [firstMarked, Query.answer_bind, answer_holdsAny, List.find?_cons]
    change Query.answer disk (if marked disk l then _ else _) = _
    cases marked disk l with
    | true => rfl
    | false => exact ih

theorem answer_above : (above l).answer disk =
    match l.ancestors.find? (marked disk) with
    | some root => .ok root
    | none => .error (.notFound l) := by
  rw [above, Query.answer_bind, answer_firstMarked]
  cases l.ancestors.find? (marked disk) <;> rfl

/-- The first place with a marker on the chain is the nearest one. -/
theorem nearest_of_find? (h : l.absolute) (hr : l.ancestors.find? (marked disk) = some r) :
    Nearest disk l r := by
  rw [Location.ancestors_eq h, List.find?_map, Option.map_eq_some_iff] at hr
  obtain ⟨n, hn, rfl⟩ := hr
  obtain ⟨hmarked, -, hbefore⟩ := List.find?_range_eq_some.1 hn
  refine ⟨⟨n, rfl⟩, hmarked, ?_⟩
  -- A place on the chain is before the first marked one, or at or above it.
  rintro d ⟨m, rfl⟩ hle hne
  by_cases hm : m < n
  · simpa using hbefore m hm
  · have habove : (Location.parent^[m] l).AtOrAbove (Location.parent^[n] l) := by
      refine ⟨m - n, ?_⟩
      rw [← Function.iterate_add_apply, Nat.sub_add_cancel (by omega)]
    have habs : (Location.parent^[n] l).absolute := Location.AtOrAbove.absolute h ⟨n, rfl⟩
    exact absurd (habove.antisymm habs hle) hne

theorem find?_ancestors_eq_some_iff (h : l.absolute) :
    l.ancestors.find? (marked disk) = some r ↔ Nearest disk l r := by
  constructor
  · exact nearest_of_find? h
  · intro hr
    have hfound : (l.ancestors.find? (marked disk)).isSome :=
      List.find?_isSome.2 ⟨r, (Location.mem_ancestors_iff h).2 hr.above, hr.marked⟩
    obtain ⟨r', hr'⟩ := Option.isSome_iff_exists.1 hfound
    rw [hr', hr.unique h (nearest_of_find? h hr')]

theorem find?_ancestors_eq_none_iff (h : l.absolute) :
    l.ancestors.find? (marked disk) = none ↔ ∀ d, d.AtOrAbove l → ¬marked disk d := by
  rw [List.find?_eq_none]
  exact forall_congr' fun d => by rw [Location.mem_ancestors_iff h]

theorem answer_above_eq_ok_iff (h : l.absolute) :
    (above l).answer disk = .ok r ↔ Nearest disk l r := by
  rw [answer_above, ← find?_ancestors_eq_some_iff h]
  cases l.ancestors.find? (marked disk) <;> simp

theorem answer_above_eq_error_iff (h : l.absolute) :
    (above l).answer disk = .error e ↔
      e = .notFound l ∧ ∀ d, d.AtOrAbove l → ¬marked disk d := by
  rw [answer_above, ← find?_ancestors_eq_none_iff h]
  cases l.ancestors.find? (marked disk) <;> simp [eq_comm]

theorem answer_find (h : (Query.locate start).answer disk = .ok l) :
    (find start).answer disk = (above l).answer disk := by
  rw [find, Query.answer_bind, h]

theorem answer_current : current.answer disk =
    match disk.workingDirectory with
    | .error cause => .error (.currentDirectory cause)
    | .ok dir => (above dir).answer disk := by
  have hasked : (Query.workingDirectory Query.done).answer disk = disk.workingDirectory := rfl
  rw [current, Query.answer_bind, hasked]
  cases disk.workingDirectory <;> rfl

theorem answer_current_eq_ok_iff (hdisk : disk.Rooted) : current.answer disk = .ok r ↔
    ∃ dir, disk.workingDirectory = .ok dir ∧ Nearest disk dir r := by
  rw [answer_current]
  cases hdir : disk.workingDirectory with
  | error cause => simp
  | ok dir =>
    obtain ⟨path, hpath, rfl⟩ := hdisk dir hdir
    simpa using answer_above_eq_ok_iff (Location.ofPath_absolute hpath)

/-- Why the working directory has no project root: it has no path, or no place at or above it has a
marker. -/
inductive Unresolved (disk : Disk) : RootError → Prop
  | nowhere {cause : DiskError} (h : disk.workingDirectory = .error cause) :
    Unresolved disk (.currentDirectory cause)
  | unmarked {dir : Location} (h : disk.workingDirectory = .ok dir)
    (hmarked : ∀ d, d.AtOrAbove dir → ¬marked disk d) : Unresolved disk (.notFound dir)

theorem answer_current_eq_error_iff (hdisk : disk.Rooted) :
    current.answer disk = .error e ↔ Unresolved disk e := by
  rw [answer_current]
  cases hdir : disk.workingDirectory with
  | error cause =>
    constructor
    · rintro ⟨⟩
      exact .nowhere hdir
    · rintro (h | h)
      · rw [hdir] at h
        cases h
        rfl
      · rw [hdir] at h
        cases h
  | ok dir =>
    obtain ⟨path, hpath, rfl⟩ := hdisk dir hdir
    refine (answer_above_eq_error_iff (Location.ofPath_absolute hpath)).trans ?_
    constructor
    · rintro ⟨rfl, hmarked⟩
      exact .unmarked hdir hmarked
    · rintro (h | ⟨h, hmarked⟩)
      · rw [hdir] at h
        cases h
      · rw [hdir] at h
        cases h
        exact ⟨rfl, hmarked⟩

/-- The search from a path that can be made absolute ends at the nearest place with a marker, from
where the folded absolute path leads up to the file system's root, and fails if there is none. It
ends at the same place from each place on the way there, and from that place itself. -/
theorem find_nearest_marked (disk : Disk) (start : String) (l : Location) (hdisk : disk.Rooted)
    (hstart : (Query.locate start).answer disk = .ok l) :
    (∃ text, Path.isAbsolute text ∧ l = Location.ofPath text ∧
      (text = start ∨ ¬Path.isAbsolute start ∧
        ∃ dir, disk.workingDirectory = .ok dir ∧ text = Path.join dir.toPath start)) ∧
    (∀ r, (find start).answer disk = .ok r ↔ Nearest disk l r) ∧
    (∀ e, (find start).answer disk = .error e ↔
      e = .notFound l ∧ ∀ d, d.AtOrAbove l → ¬marked disk d) ∧
    Location.top.AtOrAbove l ∧
    ∀ r d, (find start).answer disk = .ok r → d.AtOrAbove l → r.AtOrAbove d →
      (find d.toPath).answer disk = .ok r := by
  obtain ⟨habs, hproper⟩ := hdisk.locate hstart
  have hfind := answer_find hstart
  refine ⟨hdisk.exists_text hstart, ?_, ?_, Location.top_atOrAbove habs, ?_⟩
  · intro r
    rw [hfind]
    exact answer_above_eq_ok_iff habs
  · intro e
    rw [hfind]
    exact answer_above_eq_error_iff habs
  · intro r d hr hd hrd
    have hnearest : Nearest disk l r := by
      rw [hfind] at hr
      exact (answer_above_eq_ok_iff habs).1 hr
    have hdAbs := hd.absolute habs
    rw [answer_find (Query.answer_locate_toPath hdAbs (hd.proper hproper))]
    exact (answer_above_eq_ok_iff hdAbs).2 (hnearest.between hd hrd)

def nested : Disk where
  entry path := if path = "/work/.git" then some .folder
    else if path = "/package.json" then some .file else none
  text _ := .error .notFound
  workingDirectory := .ok (Location.ofNames ["work", "app", "src"])

theorem rooted_nested : nested.Rooted :=
  Disk.rooted_of_names rfl (by unfold Step.IsName; decide)

/-- The search passes the start, which has no marker, and ends at the folder above, as it does from
the start's own location. -/
theorem nearer_marker_is_found :
    (Query.locate "../src/./..").answer nested = .ok (.ofNames ["work", "app"]) ∧
    (find "../src/./..").answer nested = .ok (.ofNames ["work"]) ∧
    (find "/work/app").answer nested = .ok (.ofNames ["work"]) := by
  have hstart : (Query.locate "../src/./..").answer nested = .ok (.ofNames ["work", "app"]) := rfl
  obtain ⟨-, hfind, -, -, hagain⟩ := find_nearest_marked nested _ _ rooted_nested hstart
  have habove : (Location.ofNames ["work"]).AtOrAbove (.ofNames ["work", "app"]) := ⟨1, rfl⟩
  have hchain : (Location.ofNames ["work", "app"]).ancestors =
      [.ofNames ["work", "app"], .ofNames ["work"], .top] := rfl
  have hfirst : ∀ d, d.AtOrAbove (.ofNames ["work", "app"]) →
      (Location.ofNames ["work"]).AtOrAbove d → d ≠ .ofNames ["work"] → ¬marked nested d := by
    intro d hd hroot hne
    have hmem := (Location.mem_ancestors_iff rfl).2 hd
    rw [hchain] at hmem
    simp only [List.mem_cons, List.not_mem_nil, or_false] at hmem
    obtain rfl | rfl | rfl := hmem
    · decide +kernel
    · exact absurd rfl hne
    · exact absurd ((Location.top_atOrAbove rfl).antisymm rfl hroot) hne
  have hroot := (hfind _).2 ⟨habove, by decide +kernel, hfirst⟩
  exact ⟨hstart, hroot, hagain _ _ hroot (.refl _) habove⟩

end PathAudit.ProjectRoot
