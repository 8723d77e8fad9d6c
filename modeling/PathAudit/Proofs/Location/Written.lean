import Mathlib.Data.List.Basic
import PathAudit.Proofs.Location.Within
import PathAudit.Proofs.Text.Split

/-! Locations as they are written. Steps are read between slashes, so the steps of two texts with a
slash between them follow one another: a joined path leads where its second half leads from the
first, and the text of a location is read back as its steps. -/

namespace PathAudit

/-- Holds of a text that is read as one step to the entry of that name. -/
def Step.IsName (n : String) : Prop :=
  '/' ∉ n.toList ∧ Step.ofPart? n.toList = some (.name n)

namespace Path

variable {as bs : List Char} {base path n : String}

/-- The steps of a text, a slash at its beginning not counted. -/
def partSteps (s : List Char) : List Step :=
  (s.splitOn '/').filterMap Step.ofPart?

theorem steps_eq (path : String) :
    steps path = (if isAbsolute path then [.root] else []) ++ partSteps path.toList := rfl

@[simp] theorem partSteps_nil : partSteps [] = [] := rfl

theorem partSteps_append (as bs : List Char) :
    partSteps (as ++ '/' :: bs) = partSteps as ++ partSteps bs := by
  rw [partSteps, List.splitOn_append_cons_self, List.filterMap_append]
  rfl

/-- A text that is put together of pieces without a slash is read piece by piece. -/
theorem filterMap_splitOn_intercalate {β : Type} {f : List Char → Option β} (hf : f [] = none)
    {pieces : List (List Char)} (h : ∀ piece ∈ pieces, '/' ∉ piece) :
    ((['/'].intercalate pieces).splitOn '/').filterMap f = pieces.filterMap f := by
  cases pieces with
  | nil => simp [hf]
  | cons piece pieces => rw [List.splitOn_intercalate '/' h (List.cons_ne_nil _ _)]

theorem mem_intercalate_iff {c : Char} {pieces : List (List Char)} (h : c ≠ '/') :
    c ∈ ['/'].intercalate pieces ↔ ∃ piece ∈ pieces, c ∈ piece := by
  induction pieces with
  | nil => simp
  | cons piece pieces ih =>
    cases pieces with
    | nil => simp
    | cons next pieces =>
      rw [List.intercalate_cons_cons, List.mem_append, List.mem_append, ih]
      simp [h]

theorem ofPart?_eq_name {part : List Char} (h : Step.ofPart? part = some (.name n)) :
    part = n.toList := by
  unfold Step.ofPart? at h
  split at h
  · simp at h
  split at h
  · simp at h
  obtain rfl : String.ofList part = n := by simpa using h
  simp

theorem exists_cons_of_isName (h : Step.IsName n) : ∃ c cs, n.toList = c :: cs ∧ c ≠ '/' := by
  cases hn : n.toList with
  | nil =>
    have hread := h.2
    simp [hn, Step.ofPart?] at hread
  | cons c cs => exact ⟨c, cs, rfl, fun hslash => h.1 (by simp [hn, hslash])⟩

/-- The names on the way along a path are read back as they stand there. -/
theorem isName_of_mem_steps (h : .name n ∈ steps path) : Step.IsName n := by
  have h : .name n ∈ partSteps path.toList := by
    rw [steps_eq] at h
    split at h <;> simpa using h
  obtain ⟨part, hpart, hn⟩ := List.mem_filterMap.1 h
  obtain rfl := ofPart?_eq_name hn
  exact ⟨Text.not_mem_of_mem_splitOn hpart, hn⟩

theorem root_not_mem_partSteps (s : List Char) : .root ∉ partSteps s := by
  intro h
  obtain ⟨part, -, hpart⟩ := List.mem_filterMap.1 h
  unfold Step.ofPart? at hpart
  split at hpart
  · simp at hpart
  · split at hpart <;> simp at hpart

theorem isAbsolute_append (hbase : base ≠ "") (s : String) :
    isAbsolute (base ++ s) = isAbsolute base := by
  cases h : base.toList with
  | nil => exact absurd (String.toList_eq_nil_iff.1 h) hbase
  | cons c cs => simp [isAbsolute, h]

theorem steps_join (hpath : ¬isAbsolute path) : steps (join base path) = steps base ++ steps path := by
  rw [join, if_neg hpath]
  by_cases hempty : base = ""
  · subst hempty
    simp [steps_eq, show isAbsolute "" = false from rfl]
  by_cases hslash : base.toList.getLast? = some '/'
  · obtain ⟨front, hfront⟩ := List.getLast?_eq_some_iff.1 hslash
    simp [steps_eq, isAbsolute_append hempty, hpath, hfront, partSteps_append]
  · simp [steps_eq, isAbsolute_append hempty, hpath, hempty, hslash, String.append_assoc,
      partSteps_append]

end Path

namespace Location

variable {l base : Location} {path : String}

theorem resolve_join (base : Location) (first second : String) :
    base.resolve (Path.join first second) = (base.resolve first).resolve second := by
  by_cases h : Path.isAbsolute second
  · rw [resolve_of_isAbsolute _ h, Path.join, if_pos h, resolve_of_isAbsolute _ h]
  · rw [resolve, Path.steps_join h, List.foldl_append]
    rfl

theorem ofPath_join (base path : String) : ofPath (Path.join base path) = (ofPath base).resolve path :=
  resolve_join here base path

def Proper (l : Location) : Prop := ∀ n ∈ l.names, Step.IsName n

theorem Proper.parent (h : l.Proper) : l.parent.Proper := by
  intro n hn
  unfold Location.parent at hn
  split at hn
  · exact h n ((List.dropLast_sublist _).subset hn)
  · split at hn <;> exact h n hn

theorem Proper.step {s : Step} (h : l.Proper) (hs : ∀ n, s = .name n → Step.IsName n) :
    (l.step s).Proper := by
  cases s with
  | root => exact fun _ hn => absurd hn List.not_mem_nil
  | parent => exact h.parent
  | name n =>
    intro m hm
    rcases List.mem_append.1 hm with hm | hm
    · exact h m hm
    · exact hs m (by rw [List.mem_singleton.1 hm])

theorem Proper.resolve (h : base.Proper) (path : String) : (base.resolve path).Proper := by
  unfold Location.resolve
  have hsteps : ∀ n, .name n ∈ Path.steps path → Step.IsName n := fun _ => Path.isName_of_mem_steps
  generalize Path.steps path = steps at hsteps
  induction steps generalizing base with
  | nil => exact h
  | cons s steps ih =>
    exact ih (h.step fun n hn => hsteps n (hn ▸ List.mem_cons_self))
      fun n hn => hsteps n (List.mem_cons_of_mem _ hn)

theorem proper_ofPath (path : String) : (ofPath path).Proper :=
  Proper.resolve (fun _ hn => absurd hn List.not_mem_nil) path

theorem toList_toPath (l : Location) : l.toPath.toList = (if l.absolute then ['/'] else []) ++
    ['/'].intercalate (List.replicate l.ups ['.', '.'] ++ l.names.map String.toList) := by
  rw [toPath, String.toList_append, String.toList_intercalate, List.map_append, List.map_replicate]
  congr 1
  split <;> rfl

theorem slash_not_mem_pieces (h : l.Proper) :
    ∀ piece ∈ List.replicate l.ups ['.', '.'] ++ l.names.map String.toList, '/' ∉ piece := by
  intro piece hpiece
  rcases List.mem_append.1 hpiece with hup | hname
  · rw [List.eq_of_mem_replicate hup]
    decide
  · obtain ⟨n, hn, rfl⟩ := List.mem_map.1 hname
    exact (h n hn).1

/-- Read piece by piece, the text of a location is its steps up and its names. -/
theorem filterMap_splitOn_toPath {β : Type} {f : List Char → Option β} (hf : f [] = none)
    (h : l.Proper) : (l.toPath.toList.splitOn '/').filterMap f =
      (List.replicate l.ups ['.', '.'] ++ l.names.map String.toList).filterMap f := by
  rw [toList_toPath, ← Path.filterMap_splitOn_intercalate hf (slash_not_mem_pieces h)]
  split
  · rw [List.singleton_append, ← List.nil_append ('/' :: _), List.splitOn_append_cons_self,
      List.filterMap_append, List.splitOn_nil, List.filterMap_cons_none hf]
    rfl
  · rfl

/-- Between the slashes of its text stand the steps up and the names of a location, if there are
any. -/
theorem splitOn_toPath (h : l.Proper)
    (hne : List.replicate l.ups ['.', '.'] ++ l.names.map String.toList ≠ []) :
    l.toPath.toList.splitOn '/' = (if l.absolute then [[]] else []) ++
      (List.replicate l.ups ['.', '.'] ++ l.names.map String.toList) := by
  rw [toList_toPath]
  split
  · rw [List.singleton_append, ← List.nil_append ('/' :: _), List.splitOn_append_cons_self,
      List.splitOn_nil, List.splitOn_intercalate '/' (slash_not_mem_pieces h) hne]
  · exact List.splitOn_intercalate '/' (slash_not_mem_pieces h) hne

theorem mem_toPath_iff {c : Char} (hslash : c ≠ '/') (hdot : c ≠ '.') :
    c ∈ l.toPath.toList ↔ ∃ n ∈ l.names, c ∈ n.toList := by
  have hroot : c ∉ (if l.absolute then ['/'] else []) := by
    split <;> simp [hslash]
  rw [toList_toPath, List.mem_append, or_iff_right hroot, Path.mem_intercalate_iff hslash]
  simp [or_and_right, exists_or, hdot]

theorem isAbsolute_toPath (h : l.Proper) : Path.isAbsolute l.toPath = l.absolute := by
  rw [Path.isAbsolute, toList_toPath]
  cases habs : l.absolute with
  | true => rfl
  | false =>
    rw [if_neg Bool.false_ne_true, List.nil_append]
    cases hups : l.ups with
    | succ n => cases n <;> cases l.names <;> rfl
    | zero =>
      cases hnames : l.names with
      | nil => rfl
      | cons n names =>
        obtain ⟨c, cs, hn, hslash⟩ := Path.exists_cons_of_isName (h n (hnames ▸ List.mem_cons_self))
        cases names <;> simp [hn, List.intercalate, hslash]

theorem steps_toPath (h : l.Proper) : Path.steps l.toPath = l.steps := by
  have hnames : (l.names.map String.toList).filterMap Step.ofPart? = l.names.map .name := by
    rw [List.filterMap_map, List.filterMap_eq_map_iff_forall_eq_some]
    exact fun n hn => (h n hn).2
  rw [Path.steps_eq, isAbsolute_toPath h, Path.partSteps, filterMap_splitOn_toPath rfl h,
    List.filterMap_append, hnames, List.filterMap_replicate, steps, List.append_assoc]
  rfl

/-- The text of a way down is read as the names on it. -/
theorem steps_toPath_of_names {names : List String} (h : ∀ n ∈ names, Step.IsName n) :
    Path.steps (toPath ⟨false, 0, names, nofun⟩) = names.map .name :=
  steps_toPath (l := ⟨false, 0, names, nofun⟩) h

/-- The way to what lies below a base is the names that lead on from there. -/
theorem exists_names_of_startsWith (h : l.absolute) (hbase : base.absolute)
    (hstarts : l.startsWith base) : ∃ names, l.names = base.names ++ names ∧
      l.relativeTo base = ⟨false, 0, names, nofun⟩ := by
  have hname : Function.Injective Step.name := fun _ _ => Step.name.inj
  rw [startsWith, steps_of_absolute h, steps_of_absolute hbase, List.isPrefixOf_iff_prefix,
    List.cons_prefix_cons, List.prefix_map_iff_of_injective hname] at hstarts
  obtain ⟨names, hnames⟩ := hstarts.2
  refine ⟨names, hnames.symm, ?_⟩
  have hcommon := dropCommon_append_left base.names [] names
  rw [relativeTo_of_absolute h hbase, ← hnames]
  rw [List.append_nil] at hcommon
  simp [hcommon, dropCommon]

end Location

end PathAudit
