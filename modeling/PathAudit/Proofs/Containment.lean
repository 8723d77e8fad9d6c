import PathAudit.Proofs.Agreement
import PathAudit.Proofs.Location.Climb

/-! Which roots keep a validated path in. The validation compares the steps to the root with those to
the path, so it lets out what climbs from a relative root without a name, such as `.` or `..`. -/

namespace PathAudit

variable {root path v : String} {kind : PathKind} {message : Option String} {disk : Disk}

theorem Path.eq_dot_cons_of_isDotted (h : Path.isDotted path) : ∃ rest, path.toList = '.' :: rest := by
  unfold Path.isDotted at h
  cases hs : path.toList with
  | nil => simp [hs] at h
  | cons c rest => exact ⟨rest, by grind [List.isPrefixOf]⟩

theorem Path.not_isAbsolute_of_isDotted (h : Path.isDotted path) : ¬Path.isAbsolute path := by
  obtain ⟨rest, hrest⟩ := Path.eq_dot_cons_of_isDotted h
  simp [Path.isAbsolute, hrest]

theorem Path.trim_ne_nil_of_isDotted (h : Path.isDotted path) : Text.trim path.toList ≠ [] := by
  obtain ⟨rest, hrest⟩ := Path.eq_dot_cons_of_isDotted h
  intro hempty
  have hdot := Text.trim_eq_nil_iff.1 hempty '.' (hrest ▸ List.mem_cons_self)
  exact absurd hdot (by decide)

/-- Which dotted candidates a validation with a known root accepts: those that stay within the root
and, where the root is relative and has no name, those that climb out of it. -/
theorem Validator.accepts_dotted_iff (hv : Path.isDotted v) :
    (∃ accepted, ((ofRoot root).validate kind v message).answer disk = .ok accepted) ↔
      let base := Location.ofPath root
      let l := Location.ofPath (Path.join root v)
      ¬Path.hasForbidden v ∧
        (l.within base ∨ ¬base.absolute ∧ base.names = [] ∧ base.ups < l.ups) := by
  have hrelative := Path.not_isAbsolute_of_isDotted hv
  obtain ⟨hups, habs⟩ := Location.ups_le_resolve (Location.ofPath root) hrelative
  rw [answer_validate (Path.trim_ne_nil_of_isDotted hv), Location.ofPath_join]
  generalize Location.ofPath root = base at hups habs
  generalize base.resolve v = l at hups habs
  have hstarts : l.startsWith base ↔
      l.within base ∨ ¬base.absolute ∧ base.names = [] ∧ base.ups < l.ups := by
    by_cases hbase : base.absolute
    · rw [Location.within_eq_startsWith (habs.trans hbase) hbase]
      simp [hbase]
    · rw [Location.startsWith_iff_of_relative (by rwa [habs]) hbase hups]
      simp [hbase]
  simp only [← hstarts]
  by_cases hf : Path.hasForbidden v
  · simp [hf]
  · by_cases hs : l.startsWith base <;> simp [hf, hv, hs]

/-- A root keeps every dotted candidate in that it accepts exactly if it is absolute or has a name.
A root such as `.`, `..` or the empty path does not: it accepts `../`. -/
theorem root_keeps_dotted_iff (root : String) :
    (∀ kind candidate message disk accepted, Path.isDotted candidate →
      ((Validator.ofRoot root).validate kind candidate message).answer disk = .ok accepted →
      (Location.ofPath (Path.join root candidate)).within (Location.ofPath root)) ↔
    (Location.ofPath root).absolute ∨ (Location.ofPath root).names ≠ [] := by
  constructor
  · intro hkeeps
    by_cases habs : (Location.ofPath root).absolute
    · exact .inl habs
    refine .inr fun hname => ?_
    have hclimb : (Location.ofPath (Path.join root "../")).ups = (Location.ofPath root).ups + 1 ∧
        (Location.ofPath (Path.join root "../")).absolute = (Location.ofPath root).absolute := by
      rw [Location.ofPath_join]
      show (Location.ofPath root).parent.ups = _ ∧ (Location.ofPath root).parent.absolute = _
      simp [Location.parent, habs, hname]
    let disk : Disk := ⟨fun _ => none, fun _ => .error .notFound, .ok Location.top⟩
    obtain ⟨accepted, haccepted⟩ : ∃ accepted,
        ((Validator.ofRoot root).validate .any "../" none).answer disk = .ok accepted :=
      (Validator.accepts_dotted_iff (by decide)).2
        ⟨by decide, .inr ⟨habs, hname, hclimb.1 ▸ Nat.lt_succ_self _⟩⟩
    have hwithin := hkeeps .any "../" none disk accepted (by decide) haccepted
    have hups := (Location.within_iff_of_relative (by rwa [hclimb.2]) habs (by omega)).1 hwithin
    omega
  · intro hroot kind candidate message disk accepted hdotted haccepted
    have hin := ((Validator.accepts_dotted_iff hdotted).1 ⟨accepted, haccepted⟩).2
    refine hin.resolve_right fun hout => ?_
    rcases hroot with habs | hname
    · exact hout.1 habs
    · exact hname hout.2.1

/-- The root `.` accepts a path to a neighbour of the directory that it is used in. -/
theorem here_accepts_neighbour :
    let disk : Disk := ⟨fun _ => none, fun _ => .error .notFound, .ok Location.top⟩
    Path.isDotted "../x" ∧
      ((Validator.ofRoot ".").validate .any "../x" none).answer disk = .ok "../x" ∧
      (Location.ofPath (Path.join "." "../x")).within (Location.ofPath ".") = false :=
  ⟨by decide, by rfl, by decide⟩

end PathAudit
