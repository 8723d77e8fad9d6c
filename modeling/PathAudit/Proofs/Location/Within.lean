import PathAudit.Location.Relative

/-! Two ways to tell whether a location lies below another: by the names that lead to it, and by
the way there. They agree on absolute locations, where the way out of the base is the part of the
base that the location does not share. -/

namespace PathAudit

variable {α : Type} [DecidableEq α] {as bs : List α} {l base : Location} {path : String}

theorem dropCommon_cons (a : α) (as bs : List α) :
    dropCommon (a :: as) (a :: bs) = dropCommon as bs := by
  rw [dropCommon, if_pos rfl]

theorem dropCommon_append_left (common as bs : List α) :
    dropCommon (common ++ as) (common ++ bs) = dropCommon as bs := by
  induction common with
  | nil => rfl
  | cons a common ih => rw [List.cons_append, List.cons_append, dropCommon_cons, ih]

theorem dropCommon_spec (as bs : List α) : ∃ common, as = common ++ (dropCommon as bs).1 ∧
    bs = common ++ (dropCommon as bs).2 ∧
    ∀ a b s t, (dropCommon as bs).1 = a :: s → (dropCommon as bs).2 = b :: t → a ≠ b := by
  fun_induction dropCommon as bs with
  | case1 as a bs ih =>
    obtain ⟨common, h1, h2, h3⟩ := ih
    exact ⟨a :: common, congrArg _ h1, congrArg _ h2, h3⟩
  | case2 a as b bs hab =>
    refine ⟨[], rfl, rfl, ?_⟩
    rintro _ _ _ _ ⟨⟩ ⟨⟩
    exact hab
  | case3 as bs h =>
    refine ⟨[], rfl, rfl, ?_⟩
    rintro a b s t rfl rfl
    exact absurd rfl (h a s b t rfl)

theorem dropCommon_map {β : Type} [DecidableEq β] {f : α → β} (hf : Function.Injective f)
    (as bs : List α) : dropCommon (as.map f) (bs.map f) =
      ((dropCommon as bs).1.map f, (dropCommon as bs).2.map f) := by
  fun_induction dropCommon as bs with
  | case1 as a bs ih => rw [List.map_cons, List.map_cons, dropCommon_cons, ih]
  | case2 a as b bs hab =>
    rw [List.map_cons, List.map_cons, dropCommon, if_neg fun h => hab (hf h)]
  | case3 as bs h =>
    cases as with
    | nil => rfl
    | cons a as =>
      cases bs with
      | nil => rfl
      | cons b bs => exact absurd rfl (h a as b bs rfl)

theorem dropCommon_fst_eq_nil : (dropCommon as bs).1 = [] ↔ as <+: bs := by
  obtain ⟨common, h1, h2, h3⟩ := dropCommon_spec as bs
  constructor
  · intro h
    rw [h, List.append_nil] at h1
    exact ⟨_, by rw [h1, ← h2]⟩
  · rintro ⟨t, ht⟩
    generalize (dropCommon as bs).1 = s at *
    generalize (dropCommon as bs).2 = u at *
    rw [← ht, h1, List.append_assoc] at h2
    have h2 := List.append_cancel_left h2
    cases s with
    | nil => rfl
    | cons a s =>
      exact absurd rfl (h3 a a s (s ++ t) rfl h2.symm)

namespace Location

theorem parent_absolute (h : l.absolute) : l.parent.absolute := by
  unfold parent
  split
  · exact h
  · exact h

theorem step_absolute (s : Step) (h : l.absolute) : (l.step s).absolute := by
  cases s with
  | root => rfl
  | parent => exact parent_absolute h
  | name n => exact h

theorem foldl_step_absolute (ss : List Step) (h : l.absolute) : (ss.foldl step l).absolute := by
  induction ss generalizing l with
  | nil => exact h
  | cons s ss ih => exact ih (step_absolute s h)

theorem resolve_absolute (path : String) (h : base.absolute) : (base.resolve path).absolute :=
  foldl_step_absolute _ h

/-- An absolute path leads to the same place from wherever it is used. -/
theorem resolve_of_isAbsolute (base : Location) (h : Path.isAbsolute path) : base.resolve path = ofPath path := by
  rw [ofPath, resolve, resolve, Path.steps, if_pos h]
  rfl

theorem ofPath_absolute (h : Path.isAbsolute path) : (ofPath path).absolute := by
  rw [← resolve_of_isAbsolute top h]
  exact resolve_absolute path rfl

theorem steps_of_absolute (h : l.absolute) : l.steps = .root :: l.names.map .name := by
  rw [steps, if_pos h, l.ups_of_absolute h]
  rfl

theorem foldl_step_names (l : Location) (names : List String) :
    (names.map Step.name).foldl step l = { l with names := l.names ++ names } := by
  induction names generalizing l with
  | nil => simp
  | cons n names ih =>
    rw [List.map_cons, List.foldl_cons, ih]
    simp [step, child]

/-- The way between two absolute locations: up for each name that only the base has, then down the
names that only the location has. -/
theorem relativeTo_of_absolute (h : l.absolute) (hb : base.absolute) : l.relativeTo base =
    ⟨false, (dropCommon base.names l.names).1.length, (dropCommon base.names l.names).2, nofun⟩ := by
  have hname : Function.Injective Step.name := fun _ _ => Step.name.inj
  rw [relativeTo, if_pos (hb.trans h.symm), steps_of_absolute h, steps_of_absolute hb,
    dropCommon_cons, dropCommon_map hname]
  simp only [foldl_step_names, List.length_map, List.nil_append]

/-- A location is below another exactly when no step of the way there leads up. -/
theorem within_eq_startsWith (h : l.absolute) (hb : base.absolute) :
    l.within base = l.startsWith base := by
  have hname : Function.Injective Step.name := fun _ _ => Step.name.inj
  rw [Bool.eq_iff_iff, startsWith, steps_of_absolute h, steps_of_absolute hb, List.isPrefixOf_iff_prefix,
    List.cons_prefix_cons, List.prefix_map_iff_of_injective hname, ← dropCommon_fst_eq_nil, within,
    relativeTo_of_absolute h hb]
  simp

end Location

end PathAudit
