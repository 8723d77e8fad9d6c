import PathAudit.Proofs.Location.Walk

/-! Folding a path, that is, writing down where it leads. The folded path leads where the path does,
from wherever the two are used, so the halves of a joined path may be folded before they are joined.
A path keeps its parts when it is folded exactly if it is in normal form. -/

namespace PathAudit

namespace Path

def part? (piece : List Char) : Option String :=
  if piece = [] then none else some (String.ofList piece)

/-- The parts of a path between its slashes, `.` and `..` among them. -/
def parts (path : String) : List String :=
  (path.toList.splitOn '/').filterMap part?

/-- Holds of a path that has no part `.`, and parts `..` only at its beginning and, if it is
absolute, not even there. -/
def IsFolded (path : String) : Prop :=
  "." ∉ parts path ∧ ∃ ups names, parts path = List.replicate ups ".." ++ names ∧
    ".." ∉ names ∧ (isAbsolute path → ups = 0)

/-- The shortest path to where a path leads. -/
def fold (path : String) : String := (Location.ofPath path).toPath

end Path

theorem Step.isName_iff {n : String} :
    Step.IsName n ↔ '/' ∉ n.toList ∧ n ≠ "" ∧ n ≠ "." ∧ n ≠ ".." := by
  have hempty : n.toList = [] ↔ n = "" := String.toList_eq_nil_iff
  have hhere : n.toList = ['.'] ↔ n = "." := @String.toList_inj n "."
  have hparent : n.toList = ['.', '.'] ↔ n = ".." := @String.toList_inj n ".."
  simp only [IsName, ofPart?, hempty, hhere, hparent, String.ofList_toList]
  grind

namespace Path

variable {path n : String}

theorem of_mem_parts (h : n ∈ parts path) : '/' ∉ n.toList ∧ n ≠ "" := by
  obtain ⟨piece, hpiece, hn⟩ := List.mem_filterMap.1 h
  unfold part? at hn
  split at hn
  · cases hn
  · next hne =>
    cases hn
    rw [ne_eq, ← String.toList_eq_nil_iff, String.toList_ofList]
    exact ⟨Text.not_mem_of_mem_splitOn hpiece, hne⟩

theorem parts_eq (path : String) : parts path =
    ((path.toList.splitOn '/').filter (!·.isEmpty)).map String.ofList := by
  rw [parts]
  generalize path.toList.splitOn '/' = pieces
  induction pieces with
  | nil => rfl
  | cons piece pieces ih => cases piece <;> simp [part?, ih]

theorem partSteps_eq (path : String) :
    partSteps path.toList = (parts path).filterMap fun n => Step.ofPart? n.toList := by
  rw [partSteps, parts, List.filterMap_filterMap]
  apply List.filterMap_congr
  intro piece _
  by_cases h : piece = []
  · simp [h, part?, Step.ofPart?]
  · simp [h, part?]

end Path

namespace Location

variable {l : Location} {path : String}

theorem steps_child (l : Location) (n : String) : (l.child n).steps = l.steps ++ [.name n] := by
  show _ ++ (l.names ++ [n]).map Step.name = _
  rw [List.map_append, ← List.append_assoc]
  rfl

theorem exists_child_parent (h : l.names ≠ []) : ∃ n, l.parent.child n = l := by
  refine ⟨l.names.getLast h, ?_⟩
  rw [parent, if_pos h, child, List.dropLast_concat_getLast]

/-- The steps to where one more step leads have the effect of one more step, from wherever they are
taken. -/
theorem foldl_steps_step (base l : Location) (s : Step) :
    (l.step s).steps.foldl step base = (l.steps.foldl step base).step s := by
  cases s with
  | root => rfl
  | name n =>
    show (l.child n).steps.foldl step base = _
    rw [steps_child, List.foldl_append]
    rfl
  | parent =>
    show l.parent.steps.foldl step base = (l.steps.foldl step base).parent
    by_cases hnames : l.names = []
    · by_cases habs : l.absolute
      -- The file system's root stays where it is, and a relative location climbs.
      · have hroot : l = top := by
          obtain ⟨_, _, _, hups⟩ := l
          simp_all [top, ofNames]
        rw [hroot, parent_top]
        rfl
      · have hclimb : l.parent.steps = l.steps ++ [.parent] := by
          simp [steps, parent, hnames, habs, List.replicate_succ']
        rw [hclimb, List.foldl_append]
        rfl
    · obtain ⟨n, hchild⟩ := exists_child_parent hnames
      have hback : l.steps = l.parent.steps ++ [.name n] := by rw [← steps_child, hchild]
      rw [hback, List.foldl_append]
      exact (parent_child _ n).symm

theorem foldl_steps_foldl (base l : Location) (steps : List Step) :
    (steps.foldl step l).steps.foldl step base = steps.foldl step (l.steps.foldl step base) := by
  induction steps generalizing l with
  | nil => rfl
  | cons s steps ih => rw [List.foldl_cons, ih, foldl_steps_step, List.foldl_cons]

/-- From everywhere, a folded path leads where the path does. -/
theorem resolve_fold (base : Location) (path : String) :
    base.resolve (Path.fold path) = base.resolve path := by
  rw [resolve, Path.fold, steps_toPath (proper_ofPath path), ofPath, resolve, foldl_steps_foldl]
  rfl

theorem ofPath_fold (path : String) : ofPath (Path.fold path) = ofPath path :=
  resolve_fold here path

theorem absolute_ofPath (path : String) : (ofPath path).absolute = Path.isAbsolute path := by
  by_cases h : Path.isAbsolute path
  · rw [h, ofPath_absolute h]
  · rw [Bool.eq_false_iff.2 h]
    exact (ups_le_resolve here h).2

theorem parts_toPath (h : l.Proper) :
    Path.parts l.toPath = List.replicate l.ups ".." ++ l.names := by
  have hnames : (l.names.map String.toList).filterMap Path.part? = l.names := by
    rw [List.filterMap_map]
    conv_rhs => rw [← List.map_id l.names]
    rw [List.filterMap_eq_map_iff_forall_eq_some]
    intro n hn
    have hne : n.toList ≠ [] := String.toList_eq_nil_iff.not.2 (Step.isName_iff.1 (h n hn)).2.1
    simp [Path.part?, hne]
  rw [Path.parts, filterMap_splitOn_toPath rfl h, List.filterMap_append, hnames,
    List.filterMap_replicate]
  rfl

theorem isFolded_toPath (h : l.Proper) : Path.IsFolded l.toPath := by
  have hname {n : String} (hn : n ∈ l.names) := (Step.isName_iff.1 (h n hn)).2.2
  rw [Path.IsFolded, parts_toPath h, isAbsolute_toPath h]
  refine ⟨?_, l.ups, l.names, rfl, fun hn => (hname hn).2 rfl, l.ups_of_absolute⟩
  rw [List.mem_append, not_or]
  exact ⟨by simp, fun hn => (hname hn).1 rfl⟩

end Location

namespace Path

variable {path : String}

theorem isAbsolute_fold (path : String) : isAbsolute (fold path) = isAbsolute path := by
  rw [fold, Location.isAbsolute_toPath (Location.proper_ofPath path), Location.absolute_ofPath]

theorem isFolded_fold (path : String) : IsFolded (fold path) :=
  Location.isFolded_toPath (Location.proper_ofPath path)

/-- Folding keeps the parts of a path in normal form. -/
theorem IsFolded.parts_fold (h : IsFolded path) : parts (fold path) = parts path := by
  obtain ⟨hdot, ups, names, hparts, hparent, habs⟩ := h
  let l : Location := ⟨isAbsolute path, ups, names, habs⟩
  have hproper : l.Proper := by
    intro n hn
    have hmem : n ∈ parts path := hparts ▸ List.mem_append_right _ hn
    obtain ⟨hslash, hne⟩ := of_mem_parts hmem
    exact Step.isName_iff.2 ⟨hslash, hne, fun h => hdot (h ▸ hmem), fun h => hparent (h ▸ hn)⟩
  have hsteps : steps path = l.steps := by
    have hnames : (names.filterMap fun n => Step.ofPart? n.toList) = names.map .name := by
      rw [List.filterMap_eq_map_iff_forall_eq_some]
      exact fun n hn => (hproper n hn).2
    rw [steps_eq, partSteps_eq, hparts, List.filterMap_append, hnames, List.filterMap_replicate,
      ← List.append_assoc]
    rfl
  have hl : Location.ofPath path = l := by
    rw [Location.ofPath, Location.resolve, hsteps, Location.foldl_step_steps]
  rw [fold, hl, Location.parts_toPath hproper, hparts]

theorem parts_fold_eq_iff : parts (fold path) = parts path ↔ IsFolded path := by
  refine ⟨fun h => ?_, IsFolded.parts_fold⟩
  have hfolded := isFolded_fold path
  rwa [IsFolded, h, isAbsolute_fold] at hfolded

/-- Folding answers a path in normal form, keeps the parts of a path that is in normal form already,
and so leaves a folded path as it is. Of a joined path the halves may be folded first, whether they
are absolute or relative, empty or not, and whether or not something is left of them. -/
theorem fold_normal_and_compositional :
    (∀ path, IsFolded (fold path) ∧ isAbsolute (fold path) = isAbsolute path ∧
      fold (fold path) = fold path ∧ (parts (fold path) = parts path ↔ IsFolded path)) ∧
    ∀ a b, fold (join a b) = fold (join (fold a) (fold b)) := by
  constructor
  · intro path
    refine ⟨isFolded_fold path, isAbsolute_fold path, ?_, parts_fold_eq_iff⟩
    exact congrArg Location.toPath (Location.ofPath_fold path)
  · intro a b
    apply congrArg Location.toPath
    rw [Location.ofPath_join, Location.ofPath_join, Location.ofPath_fold, Location.resolve_fold]

end Path

end PathAudit
