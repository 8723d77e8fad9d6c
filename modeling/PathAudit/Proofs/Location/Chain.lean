import Mathlib.Logic.Function.Iterate
import PathAudit.Proofs.Location.Walk

/-! The chain of directories from a location up to the file system's root: its parent, the parent of
that, and so on. What is at or above an absolute location is on its chain, and any two places there
are one above the other. -/

namespace PathAudit.Location

variable {l d e : Location} {names first : List String}

/-- Holds when taking the parent, some number of times or not at all, leads from `l` to `d`. -/
def AtOrAbove (d l : Location) : Prop := ∃ n, parent^[n] l = d

theorem AtOrAbove.refl (l : Location) : l.AtOrAbove l := ⟨0, rfl⟩

theorem AtOrAbove.trans (hed : e.AtOrAbove d) (hdl : d.AtOrAbove l) : e.AtOrAbove l := by
  obtain ⟨m, rfl⟩ := hed
  obtain ⟨n, rfl⟩ := hdl
  exact ⟨m + n, Function.iterate_add_apply parent m n l⟩

theorem exists_ofNames (h : l.absolute) : ∃ names, ofNames names = l := by
  have hups := l.ups_of_absolute h
  refine ⟨l.names, ?_⟩
  cases l
  simp_all [ofNames]

theorem iterate_parent_ofNames (n : Nat) (names : List String) :
    parent^[n] (ofNames names) = ofNames (names.take (names.length - n)) := by
  induction n with
  | zero => simp
  | succ n ih =>
    rw [Function.iterate_succ_apply', ih, parent_ofNames, List.dropLast_eq_take, List.take_take,
      List.length_take]
    congr 2
    omega

theorem iterate_parent_of_prefix (h : first <+: names) :
    parent^[names.length - first.length] (ofNames names) = ofNames first := by
  rw [iterate_parent_ofNames, Nat.sub_sub_self h.length_le, ← List.prefix_iff_eq_take.1 h]

/-- At or above a place are the places that the first of its names lead to. -/
theorem atOrAbove_ofNames_iff :
    d.AtOrAbove (ofNames names) ↔ ∃ first, first <+: names ∧ ofNames first = d := by
  constructor
  · rintro ⟨n, rfl⟩
    exact ⟨_, List.take_prefix _ _, (iterate_parent_ofNames n names).symm⟩
  · rintro ⟨first, hfirst, rfl⟩
    exact ⟨_, iterate_parent_of_prefix hfirst⟩

theorem AtOrAbove.absolute (h : l.absolute) (hd : d.AtOrAbove l) : d.absolute := by
  obtain ⟨n, rfl⟩ := hd
  induction n with
  | zero => exact h
  | succ n ih =>
    rw [Function.iterate_succ_apply']
    exact parent_absolute ih

theorem AtOrAbove.proper (h : l.Proper) (hd : d.AtOrAbove l) : d.Proper := by
  obtain ⟨n, rfl⟩ := hd
  induction n with
  | zero => exact h
  | succ n ih =>
    rw [Function.iterate_succ_apply']
    exact ih.parent

theorem top_atOrAbove (h : l.absolute) : top.AtOrAbove l := by
  obtain ⟨names, rfl⟩ := exists_ofNames h
  exact atOrAbove_ofNames_iff.2 ⟨[], List.nil_prefix, rfl⟩

theorem AtOrAbove.antisymm (h : l.absolute) (hd : d.AtOrAbove l) (hl : l.AtOrAbove d) : d = l := by
  obtain ⟨names, rfl⟩ := exists_ofNames h
  obtain ⟨first, hfirst, rfl⟩ := atOrAbove_ofNames_iff.1 hd
  obtain ⟨all, hall, heq⟩ := atOrAbove_ofNames_iff.1 hl
  obtain rfl : all = names := congrArg Location.names heq
  rw [hfirst.eq_of_length_le hall.length_le]

/-- Of two places on one chain, one is above the other. -/
theorem AtOrAbove.total (h : l.absolute) (hd : d.AtOrAbove l) (he : e.AtOrAbove l) :
    d.AtOrAbove e ∨ e.AtOrAbove d := by
  obtain ⟨names, rfl⟩ := exists_ofNames h
  obtain ⟨first, hfirst, rfl⟩ := atOrAbove_ofNames_iff.1 hd
  obtain ⟨first', hfirst', rfl⟩ := atOrAbove_ofNames_iff.1 he
  apply (List.prefix_or_prefix_of_prefix hfirst hfirst').imp
  · exact fun hle => atOrAbove_ofNames_iff.2 ⟨first, hle, rfl⟩
  · exact fun hle => atOrAbove_ofNames_iff.2 ⟨first', hle, rfl⟩

theorem ancestors_eq (h : l.absolute) :
    l.ancestors = (List.range (l.names.length + 1)).map fun n => parent^[n] l := by
  obtain ⟨names, rfl⟩ := exists_ofNames h
  apply List.map_congr_left
  intro n _
  exact (iterate_parent_ofNames n names).symm

theorem mem_ancestors_iff (h : l.absolute) : d ∈ l.ancestors ↔ d.AtOrAbove l := by
  rw [ancestors_eq h, List.mem_map]
  constructor
  · rintro ⟨n, -, rfl⟩
    exact ⟨n, rfl⟩
  · intro hd
    obtain ⟨names, rfl⟩ := exists_ofNames h
    obtain ⟨first, hfirst, rfl⟩ := atOrAbove_ofNames_iff.1 hd
    apply Exists.intro (names.length - first.length)
    refine ⟨List.mem_range.2 ?_, iterate_parent_of_prefix hfirst⟩
    show _ < names.length + 1
    omega

end PathAudit.Location
