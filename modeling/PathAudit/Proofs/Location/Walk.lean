import PathAudit.Proofs.Location.Climb

/-! Walking along a path from a place below the file system's root, one segment after the other. The
names that lead to where the walk ends are those of the location that the path leads to, and the
text of that location leads there again. -/

namespace PathAudit

namespace Path

/-- Where a segment leads from where some names lead: nowhere if it is empty or `.`, to the parent
if it is `..`, where the file system's root stays, and else to the entry of that name. -/
def follow (names : List String) (segment : List Char) : List String :=
  if segment = [] ∨ segment = ['.'] then names
  else if segment = ['.', '.'] then names.dropLast
  else names ++ [String.ofList segment]

def walk (names : List String) (path : String) : List String :=
  (path.toList.splitOn '/').foldl follow (if isAbsolute path then [] else names)

end Path

namespace Location

variable {l : Location} {path : String}

theorem parent_ofNames (names : List String) : (ofNames names).parent = ofNames names.dropLast := by
  cases names with
  | nil => exact parent_top
  | cons n names => simp [parent, ofNames]

/-- One segment of the walk is one step, or none. -/
theorem foldl_step_ofNames (names : List String) (segments : List (List Char)) :
    (segments.filterMap Step.ofPart?).foldl step (ofNames names) =
      ofNames (segments.foldl Path.follow names) := by
  induction segments generalizing names with
  | nil => rfl
  | cons segment segments ih =>
    rw [List.filterMap_cons, List.foldl_cons, ← ih, Step.ofPart?, Path.follow]
    by_cases hnowhere : segment = [] ∨ segment = ['.']
    · rw [if_pos hnowhere, if_pos hnowhere]
    rw [if_neg hnowhere, if_neg hnowhere]
    by_cases hparent : segment = ['.', '.']
    · rw [if_pos hparent, if_pos hparent, ← parent_ofNames]
      rfl
    · rw [if_neg hparent, if_neg hparent]
      rfl

theorem resolve_ofNames (names : List String) (path : String) :
    (ofNames names).resolve path = ofNames (Path.walk names path) := by
  rw [resolve, Path.steps_eq, List.foldl_append, Path.walk, ← foldl_step_ofNames]
  cases Path.isAbsolute path <;> rfl

theorem ofPath_eq_walk (h : Path.isAbsolute path) : ofPath path = ofNames (Path.walk [] path) := by
  rw [← resolve_ofNames, ← resolve_of_isAbsolute (ofNames []) h]

theorem within_ofNames (base names : List String) :
    (ofNames names).within (ofNames base) ↔ base <+: names := by
  rw [within_eq_startsWith rfl rfl, startsWith, List.isPrefixOf_iff_prefix,
    steps_of_absolute rfl, steps_of_absolute rfl, List.cons_prefix_cons,
    List.prefix_map_iff_of_injective fun _ _ => Step.name.inj]
  exact and_iff_right rfl

theorem foldl_step_steps (l : Location) : l.steps.foldl step here = l := by
  obtain ⟨absolute, ups, names, hups⟩ := l
  cases absolute with
  | true =>
    obtain rfl := hups rfl
    rw [steps_of_absolute rfl, List.foldl_cons, foldl_step_names]
    rfl
  | false =>
    rw [steps_of_relative Bool.false_ne_true, List.foldl_append, here, foldl_step_parents,
      foldl_step_names]
    simp

theorem ofPath_toPath (h : l.Proper) : ofPath l.toPath = l := by
  rw [ofPath, resolve, steps_toPath h, foldl_step_steps]

end Location

end PathAudit
