import PathAudit.CommandLine.Run
import PathAudit.Proofs.Disk.Located
import PathAudit.Proofs.Location.Way

/-! How checked files are named: within the root by the way to them, which leads back to the file,
and outside as they are spelled. Two files share a name only where the spelling of one outside
happens to be the way to one within, and never where the working directory lies within the root. -/

namespace PathAudit

variable {disk : Disk} {root dir l : Location} {path : String} {paths : List String}
  {place : String → Location}

namespace Location

theorem startsWith_append_names (l : Location) (names : List String) :
    ({ l with names := l.names ++ names } : Location).startsWith l := by
  rw [startsWith, List.isPrefixOf_iff_prefix, steps, steps, List.map_append, ← List.append_assoc]
  exact List.prefix_append _ _

theorem startsWith_trans {a b : Location} (hla : l.startsWith a) (hab : a.startsWith b) :
    l.startsWith b := by
  rw [startsWith, List.isPrefixOf_iff_prefix] at *
  exact hab.trans hla

theorem startsWith_of_mem_ancestors (h : root ∈ l.ancestors) : l.startsWith root := by
  obtain ⟨k, -, rfl⟩ := List.mem_map.1 h
  rw [startsWith, List.isPrefixOf_iff_prefix, steps, steps, List.map_take]
  exact List.prefix_append_right_inj _ |>.2 (List.take_prefix _ _)

end Location

namespace CommandLine

/-- The name of the file at a location that was spelled as a path. -/
def nameFor (root l : Location) (path : String) : String :=
  if l.startsWith root then (l.relativeTo root).toPath else path

theorem answer_shownName (h : (Query.locate path).answer disk = .ok l) :
    (shownName root path).answer disk = nameFor root l path := by
  rw [shownName, Query.answer_bind, h]
  rfl

/-- Holds when one of some paths leads out of the root and is spelled as the way from the root to
where another leads within it. -/
def NameClash (root : Location) (place : String → Location) (paths : List String) : Prop :=
  ∃ p ∈ paths, ∃ q ∈ paths, (place p).startsWith root ∧ ¬(place q).startsWith root ∧
    q = ((place p).relativeTo root).toPath

/-- Different files have different names unless there is such a clash. -/
theorem names_distinct_iff (hroot : root.absolute)
    (hplace : ∀ path ∈ paths, (place path).absolute ∧ (place path).Proper) :
    (∀ p ∈ paths, ∀ q ∈ paths, place p ≠ place q →
        nameFor root (place p) p ≠ nameFor root (place q) q) ↔
      ¬NameClash root place paths := by
  constructor
  · rintro hdistinct ⟨p, hp, q, hq, hin, hout, hspelled⟩
    refine hdistinct p hp q hq (fun h => hout (h ▸ hin)) ?_
    rw [nameFor, if_pos hin, nameFor, if_neg hout, hspelled]
  · intro hclash p hp q hq hne hname
    have hlead (path : String) (hpath : path ∈ paths) :=
      Location.resolve_relativeTo (hplace path hpath).2 (hplace path hpath).1 hroot
    unfold nameFor at hname
    split at hname
    · next hpin =>
      split at hname
      · exact hne ((hlead p hp).symm.trans (hname ▸ hlead q hq))
      · next hqout => exact hclash ⟨p, hp, q, hq, hpin, hqout, hname.symm⟩
    · next hpout =>
      split at hname
      · next hqin => exact hclash ⟨q, hq, p, hp, hqin, hpout, hname⟩
      · exact hne (congrArg place hname)

/-- Where the working directory lies within the root, so does every file that is spelled as a way
down. -/
theorem not_nameClash_of_within (hdisk : disk.Rooted) (hroot : root.absolute)
    (hdir : disk.workingDirectory = .ok dir) (hin : dir.startsWith root)
    (hplace : ∀ path ∈ paths, (Query.locate path).answer disk = .ok (place path)) :
    ¬NameClash root place paths := by
  rintro ⟨p, hp, q, hq, hpin, hqout, rfl⟩
  obtain ⟨habs, hproper⟩ := hdisk.locate (hplace p hp)
  obtain ⟨names, hnames, hway⟩ := Location.exists_names_of_startsWith habs hroot hpin
  have hsteps : Path.steps ((place p).relativeTo root).toPath = names.map .name := by
    rw [hway]
    exact Location.steps_toPath_of_names fun n hn => hproper n (hnames ▸ List.mem_append_right _ hn)
  apply hqout
  rcases Query.answer_locate_eq_ok (hplace _ hq) with ⟨habs', -⟩ | ⟨-, dir', hdir', hplaced⟩
  · -- A path that is read as names alone does not begin with the step to the file system's root.
    have : Step.root ∈ names.map Step.name := by
      rw [← hsteps, Path.steps_eq, if_pos habs']
      exact List.mem_cons_self
    simp at this
  · obtain rfl : dir = dir' := Except.ok.inj (hdir.symm.trans hdir')
    rw [hplaced, Location.resolve, hsteps, Location.foldl_step_names]
    exact Location.startsWith_trans (Location.startsWith_append_names dir names) hin

end CommandLine

end PathAudit
