import PathAudit.Proofs.Location.Chain
import PathAudit.Proofs.Location.Folding

/-! The way from one absolute place to another: up from the one to the lowest place that is at or
above both, and from there down the names to the other. Taken from the one it ends at the other, and
its first part is `..` exactly if the other does not lie at or below the one. -/

namespace PathAudit

variable {α : Type} [DecidableEq α]

theorem dropCommon_self (as : List α) : dropCommon as as = ([], []) := by
  induction as with
  | nil => rfl
  | cons a as ih => rw [dropCommon_cons, ih]

namespace Location

variable {l base : Location}

theorem foldl_replicate_parent (n : Nat) (l : Location) :
    (List.replicate n Step.parent).foldl step l = parent^[n] l := by
  induction n generalizing l with
  | zero => rfl
  | succ n ih => rw [List.replicate_succ, List.foldl_cons, ih, Function.iterate_succ_apply]; rfl

theorem Proper.relativeTo (hproper : l.Proper) (h : l.absolute) (hb : base.absolute) :
    (l.relativeTo base).Proper := by
  obtain ⟨common, -, hnames, -⟩ := dropCommon_spec base.names l.names
  rw [relativeTo_of_absolute h hb]
  intro n hn
  apply hproper n
  rw [hnames]
  exact List.mem_append_right common hn

/-- The parts of the way: one `..` for each name that only the base has, then the names that only the
location has. -/
theorem parts_relativeTo (hproper : l.Proper) (h : l.absolute) (hb : base.absolute) :
    Path.parts (l.relativeTo base).toPath =
      List.replicate (dropCommon base.names l.names).1.length ".." ++
        (dropCommon base.names l.names).2 := by
  rw [parts_toPath (hproper.relativeTo h hb), relativeTo_of_absolute h hb]

/-- Where the text of a relative location leads: up by its steps, then down by its names. -/
theorem resolve_toPath_of_relative (hproper : l.Proper) (h : ¬l.absolute) (names : List String) :
    (ofNames names).resolve l.toPath =
      ofNames (names.take (names.length - l.ups) ++ l.names) := by
  rw [resolve, steps_toPath hproper, steps_of_relative h, List.foldl_append, foldl_replicate_parent,
    iterate_parent_ofNames, foldl_step_names]
  rfl

/-- From the one place, the text of the way to the other leads there. -/
theorem resolve_relativeTo (hproper : l.Proper) (h : l.absolute) (hb : base.absolute) :
    base.resolve (l.relativeTo base).toPath = l := by
  have hway := hproper.relativeTo h hb
  rw [relativeTo_of_absolute h hb] at hway ⊢
  obtain ⟨goal, rfl⟩ := exists_ofNames h
  obtain ⟨start, rfl⟩ := exists_ofNames hb
  obtain ⟨common, hstart, hgoal, -⟩ := dropCommon_spec start goal
  have hup : start.length - (dropCommon start goal).1.length = common.length := by
    have hlength := congrArg List.length hstart
    rw [List.length_append] at hlength
    omega
  have hlowest : start.take common.length = common := by
    rw [hstart]
    exact List.take_left
  rw [resolve_toPath_of_relative hway Bool.false_ne_true]
  show ofNames (start.take (start.length - (dropCommon start goal).1.length) ++ _) = ofNames goal
  rw [hup, hlowest]
  exact congrArg ofNames hgoal.symm

theorem toPath_relativeTo_eq_empty_iff (hproper : l.Proper) (h : l.absolute) (hb : base.absolute) :
    (l.relativeTo base).toPath = "" ↔ base = l := by
  constructor
  · intro hempty
    have hlead := resolve_relativeTo hproper h hb
    rwa [hempty] at hlead
  · rintro rfl
    rw [relativeTo_of_absolute h h, dropCommon_self]
    rfl

end Location

namespace Path

theorem fold_eq_iff {path path' : String} :
    fold path = fold path' ↔ Location.ofPath path = Location.ofPath path' := by
  refine ⟨fun h => ?_, congrArg Location.toPath⟩
  rw [← Location.ofPath_fold path, h, Location.ofPath_fold]

theorem parts_fold_of_isAbsolute {path : String} (h : isAbsolute path) :
    parts (fold path) = (Location.ofPath path).names := by
  rw [fold, Location.parts_toPath (Location.proper_ofPath path),
    (Location.ofPath path).ups_of_absolute (Location.ofPath_absolute h)]
  rfl

/-- The way from one absolute path to another is relative, and leads from the one to where the other
leads. It is empty exactly if both lead to the same place, and it begins with `..` exactly if the
parts of the one, folded, do not begin those of the other. -/
theorem way_leads_back (start goal : String) (hstart : isAbsolute start) (hgoal : isAbsolute goal) :
    let way := ((Location.ofPath goal).relativeTo (Location.ofPath start)).toPath
    fold (join start way) = fold goal ∧ ¬isAbsolute way ∧ (way = "" ↔ fold start = fold goal) ∧
      ((parts way).head? = some ".." ↔ ¬parts (fold start) <+: parts (fold goal)) := by
  intro way
  have hfrom := Location.ofPath_absolute hstart
  have hto := Location.ofPath_absolute hgoal
  have hproper := Location.proper_ofPath goal
  have hparts := Location.parts_relativeTo hproper hto hfrom
  refine ⟨?_, ?_, ?_, ?_⟩
  · apply congrArg Location.toPath
    rw [Location.ofPath_join, Location.resolve_relativeTo hproper hto hfrom]
  · rw [Location.isAbsolute_toPath (hproper.relativeTo hto hfrom),
      Location.relativeTo_of_absolute hto hfrom]
    exact Bool.false_ne_true
  · rw [fold_eq_iff]
    exact Location.toPath_relativeTo_eq_empty_iff hproper hto hfrom
  · rw [hparts, parts_fold_of_isAbsolute hstart, parts_fold_of_isAbsolute hgoal,
      ← dropCommon_fst_eq_nil]
    cases hback : (dropCommon (Location.ofPath start).names (Location.ofPath goal).names).1 with
    | nil =>
      have hdown := hproper.relativeTo hto hfrom
      rw [Location.relativeTo_of_absolute hto hfrom] at hdown
      have hname : ".." ∉ (dropCommon (Location.ofPath start).names (Location.ofPath goal).names).2 :=
        fun hn => (Step.isName_iff.1 (hdown _ hn)).2.2.2 rfl
      simpa using fun hn => hname (List.mem_of_mem_head? hn)
    | cons n back => simp [List.replicate_succ]

/-- The way to a sibling whose name begins as the start's does goes up first, and leads there. -/
theorem way_to_sibling_goes_up :
    let start := "/work/./app"
    let goal := "/work/x/../app-evil//y"
    let way := ((Location.ofPath goal).relativeTo (Location.ofPath start)).toPath
    isAbsolute start ∧ isAbsolute goal ∧ way = "../app-evil/y" ∧
      fold (join start way) = "/work/app-evil/y" ∧ ¬parts (fold start) <+: parts (fold goal) := by
  intro start goal way
  have hstart : isAbsolute start := by decide
  have hgoal : isAbsolute goal := by decide
  have hway : way = "../app-evil/y" := by decide +kernel
  have hgoalFold : fold goal = "/work/app-evil/y" := by decide +kernel
  obtain ⟨hback, -, -, hup⟩ := way_leads_back start goal hstart hgoal
  exact ⟨hstart, hgoal, hway, hback.trans hgoalFold, hup.1 (by decide +kernel)⟩

end Path

end PathAudit
