import PathAudit.Proofs.Location.Written

/-! Relative locations and the steps up that they begin with. What lies below a relative base is as
high up as the base is; the steps to the base also begin the steps to all that is further up if the
base has no name. -/

namespace PathAudit

variable {l base : Location} {path : String}

namespace Location

theorem steps_of_relative (h : ¬l.absolute) :
    l.steps = List.replicate l.ups .parent ++ l.names.map .name := by
  rw [steps, if_neg h]
  rfl

theorem foldl_step_parents (climbs ups : Nat) :
    (List.replicate climbs Step.parent).foldl step ⟨false, ups, [], nofun⟩ = ⟨false, ups + climbs, [], nofun⟩ := by
  induction climbs generalizing ups with
  | zero => rfl
  | succ climbs ih =>
    rw [List.replicate_succ, List.foldl_cons, show step ⟨false, ups, [], nofun⟩ .parent =
      ⟨false, ups + 1, [], nofun⟩ by simp [step, parent], ih, Nat.add_right_comm, Nat.add_assoc]

/-- The way between two relative locations, of which the second is no higher than the first. -/
theorem relativeTo_of_relative {climbs : Nat} (h : ¬l.absolute) (hbase : ¬base.absolute)
    (hups : l.ups = base.ups + climbs) : l.relativeTo base =
      let way := dropCommon (base.names.map Step.name) (List.replicate climbs .parent ++ l.names.map .name)
      way.2.foldl step ⟨false, way.1.length, [], nofun⟩ := by
  have habs : base.absolute = l.absolute := by grind
  rw [relativeTo, if_pos habs, steps_of_relative h, steps_of_relative hbase, hups,
    ← List.replicate_append_replicate, List.append_assoc, dropCommon_append_left]

theorem ups_le_foldl_step (steps : List Step) (l : Location) (h : .root ∉ steps) :
    l.ups ≤ (steps.foldl step l).ups ∧ (steps.foldl step l).absolute = l.absolute := by
  induction steps generalizing l with
  | nil => exact ⟨Nat.le_refl _, rfl⟩
  | cons s steps ih =>
    obtain ⟨hs, hsteps⟩ : .root ≠ s ∧ .root ∉ steps := by simpa using h
    have hstep : l.ups ≤ (l.step s).ups ∧ (l.step s).absolute = l.absolute := by
      cases s with
      | root => exact absurd rfl hs
      | parent => unfold step parent; grind
      | name n => exact ⟨Nat.le_refl _, rfl⟩
    obtain ⟨hle, heq⟩ := ih (l.step s) hsteps
    exact ⟨Nat.le_trans hstep.1 hle, heq.trans hstep.2⟩

/-- A relative path never leads to a place that is relative to something higher than its base. -/
theorem ups_le_resolve (base : Location) (h : ¬Path.isAbsolute path) :
    base.ups ≤ (base.resolve path).ups ∧ (base.resolve path).absolute = base.absolute := by
  apply ups_le_foldl_step
  rw [Path.steps_eq, if_neg h]
  exact Path.root_not_mem_partSteps _

/-- Below a relative base are the places as high up that its names lead to. -/
theorem within_iff_of_relative (h : ¬l.absolute) (hbase : ¬base.absolute) (hups : base.ups ≤ l.ups) :
    l.within base ↔ l.ups = base.ups ∧ base.names <+: l.names := by
  have hname : Function.Injective Step.name := fun _ _ => Step.name.inj
  obtain ⟨climbs, hclimbs⟩ := Nat.exists_eq_add_of_le hups
  rw [within, relativeTo_of_relative h hbase hclimbs, hclimbs]
  cases climbs with
  | zero =>
    rw [List.replicate_zero, List.nil_append, dropCommon_map hname, ← dropCommon_fst_eq_nil]
    simp [foldl_step_names]
  | succ climbs =>
    -- The way begins with a step to the parent, or goes up for a name of the base.
    have hway (back : Nat) (h : 0 < back ∨ back = 0 ∧ base.names = []) :
        0 < ((List.replicate (climbs + 1) Step.parent ++ l.names.map Step.name).foldl step
          ⟨false, back, [], by simp⟩).ups := by
      rw [List.foldl_append, foldl_step_parents, foldl_step_names]
      grind
    cases hb : base.names with
    | nil =>
      have := hway 0 (.inr ⟨rfl, hb⟩)
      simp [dropCommon]
      grind
    | cons n names =>
      have := hway (names.length + 1) (.inl (Nat.succ_pos _))
      rw [List.map_cons, List.replicate_succ, List.cons_append, dropCommon,
        if_neg (by simp)]
      simp
      grind

/-- A path begins as the root does if it lies below, or if the root has no name and the path climbs
further up. -/
theorem startsWith_iff_of_relative (h : ¬l.absolute) (hbase : ¬base.absolute) (hups : base.ups ≤ l.ups) :
    l.startsWith base ↔ l.within base ∨ base.names = [] ∧ base.ups < l.ups := by
  have hname : Function.Injective Step.name := fun _ _ => Step.name.inj
  obtain ⟨climbs, hclimbs⟩ := Nat.exists_eq_add_of_le hups
  rw [within_iff_of_relative h hbase hups, startsWith, List.isPrefixOf_iff_prefix, steps_of_relative h,
    steps_of_relative hbase, hclimbs, ← List.replicate_append_replicate, List.append_assoc,
    List.prefix_append_right_inj]
  cases climbs with
  | zero => simp [List.prefix_map_iff_of_injective hname]
  | succ climbs => cases base.names <;> simp [List.replicate_succ]

end Location

end PathAudit
