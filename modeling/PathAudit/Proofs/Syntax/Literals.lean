import PathAudit.Declaration
import PathAudit.Proofs.Syntax.Spans

/-! The literals of path declarations. Each was read from one string token, and they come in the order of
the tokens. -/

namespace PathAudit

def PathDeclaration.literal (d : PathDeclaration) : PlacedToken :=
  ⟨.string d.value, d.span⟩

theorem literals_pathDeclaration? {d : Declarator} {p : PathDeclaration}
    (h : d.pathDeclaration? = some p) : d.literals = [p.literal] := by
  obtain ⟨name, ascription, initializer⟩ := d
  match initializer, h with
  | some (.literal value span), h =>
    simp only [Declarator.pathDeclaration?, Option.bind_eq_bind, Option.bind_eq_some_iff,
      Option.pure_def, Option.some.injEq] at h
    obtain ⟨_, -, _, -, _, -, rfl⟩ := h
    rfl

/-- The literals of the path declarations of a source text are tokens of it, in their order. -/
theorem literals_pathDeclarations (source : String) :
    ((Parsed.ofText source).outline.pathDeclarations.map PathDeclaration.literal).Sublist
      (Scan.ofText source).tokens := by
  refine List.Sublist.trans ?_ (leaves_outline source)
  unfold Module.pathDeclarations
  induction (Parsed.ofText source).outline.declarators with
  | nil => exact List.nil_sublist _
  | cons d ds ih =>
    rw [List.flatMap_cons]
    cases h : d.pathDeclaration? with
    | none =>
      rw [List.filterMap_cons_none h]
      exact (List.nil_sublist _).append ih
    | some p =>
      rw [List.filterMap_cons_some h, List.map_cons, Declarator.leaves, literals_pathDeclaration? h]
      exact (List.sublist_append_right _ [p.literal]).append ih

end PathAudit
