import PathAudit.Proofs.Syntax.Outline

/-! The leaves of an outline: the tokens of its names and of its literals. Each reader answers with leaves
that it took, in the order of the tokens, whatever else it took or gave back between them. -/

namespace PathAudit

def Identifier.token (i : Identifier) : PlacedToken := ⟨.identifier i.name, i.span⟩

namespace TypeExpr

mutual

def identifiers : TypeExpr → List Identifier
  | reference name args => name.segments ++ identifiersAll args
  | array element => element.identifiers
  | union members => identifiersAll members
  | parenthesized inner => inner.identifiers
  | literal _ => []

def identifiersAll : List TypeExpr → List Identifier
  | [] => []
  | t :: ts => t.identifiers ++ identifiersAll ts

end

def leaves (t : TypeExpr) : List PlacedToken := t.identifiers.map Identifier.token

def leavesAll (ts : List TypeExpr) : List PlacedToken := (identifiersAll ts).map Identifier.token

theorem leaves_reference (name : QualifiedName) (args : List TypeExpr) :
    (reference name args).leaves = name.segments.map Identifier.token ++ leavesAll args := by
  rw [leaves, identifiers, List.map_append, leavesAll]

theorem leavesAll_nil : leavesAll [] = [] := rfl

theorem leavesAll_cons (t : TypeExpr) (ts : List TypeExpr) :
    leavesAll (t :: ts) = t.leaves ++ leavesAll ts := by
  rw [leavesAll, identifiersAll, List.map_append, leaves, leavesAll]

end TypeExpr

def Initializer.literals : Initializer → List PlacedToken
  | .literal value span => [⟨.string value, span⟩]
  | .other => []

namespace Declarator

def identifiers (d : Declarator) : List Identifier :=
  d.name :: d.annotation.toList.flatMap TypeExpr.identifiers

def literals (d : Declarator) : List PlacedToken :=
  d.initializer.toList.flatMap Initializer.literals

/-- The tokens of the names and of the literal, in the order in which they are written. -/
def leaves (d : Declarator) : List PlacedToken :=
  d.identifiers.map Identifier.token ++ d.literals

end Declarator

def Statement.identifiers (s : Statement) : List Identifier :=
  s.declarators.flatMap Declarator.identifiers

def Statement.leaves (s : Statement) : List PlacedToken :=
  s.declarators.flatMap Declarator.leaves

/-- The leaves are among the first `n` tokens, in their order. -/
def Taken (leaves ts : List PlacedToken) (n : Nat) : Prop := leaves.Sublist (ts.take n)

namespace Taken

variable {as bs ts : List PlacedToken} {t : PlacedToken} {n k : Nat}

theorem nil : Taken [] ts n := List.nil_sublist _

theorem leaf (h : Taken as ts n) : Taken (t :: as) (t :: ts) (n + 1) := h.cons_cons t

theorem skip (h : Taken as ts n) : Taken as (t :: ts) (n + 1) := h.cons t

theorem append (h : Taken as ts n) (h' : Taken bs (ts.drop n) k) : Taken (as ++ bs) ts (n + k) := by
  rw [Taken, List.take_add]
  exact List.Sublist.append h h'

theorem mono (h : Taken as ts n) (hnk : n ≤ k) : Taken as ts k :=
  h.trans (List.take_prefix_take_left hnk).sublist

end Taken

namespace Parser

open TypeExpr

variable {ts : List PlacedToken} {d : Declarator} {s : Statement} {t : TypeExpr} {n : Nat}

theorem leaves_segments (ts : List PlacedToken) :
    Taken ((segments ts).map Identifier.token) ts (2 * (segments ts).length) := by
  fun_induction segments ts with
  | case1 s name s' r ih => exact ih.leaf.skip
  | case2 => exact .nil

theorem leaves_arrayOf (t : TypeExpr) (n : Nat) : (arrayOf t n).leaves = t.leaves := by
  induction n generalizing t with
  | zero => rfl
  | succ n ih => rw [arrayOf, ih, leaves, identifiers, leaves]

theorem leaves_unionOf (first : TypeExpr) (more : List TypeExpr) :
    (unionOf first more).leaves = first.leaves ++ leavesAll more := by
  cases more with
  | nil => rw [unionOf, leavesAll_nil, List.append_nil]
  | cons t more => exact leavesAll_cons first (t :: more)

def TypeReader.TakesLeaves : TypeReader → List PlacedToken → Prop
  | .typeExpr, ts => ∀ t n, Parser.typeExpr ts = some (t, n) → Taken t.leaves ts n
  | .union, ts => ∀ t n, Parser.union ts = some (t, n) → Taken t.leaves ts n
  | .alternatives, ts =>
    Taken (leavesAll (Parser.alternatives ts).1) ts (Parser.alternatives ts).2
  | .member, ts => ∀ t n, Parser.member ts = some (t, n) → Taken t.leaves ts n
  | .primary, ts => ∀ t n, Parser.primary ts = some (t, n) → Taken t.leaves ts n
  | .typeArguments, ts =>
    ∀ args n, Parser.typeArguments ts = some (args, n) → Taken (leavesAll args) ts n
  | .typeList, ts => Taken (leavesAll (Parser.typeList ts).1) ts (Parser.typeList ts).2

theorem leaves_types (reader : TypeReader) (ts : List PlacedToken) : reader.TakesLeaves ts := by
  induction reader, ts using TypeReader.induction with
  | typeExpr ts ih =>
    intro t n h
    obtain ⟨k, hu, rfl⟩ := typeExpr_eq_some h
    exact Taken.nil.append (ih t k hu)
  | union ts ihm iha =>
    intro t n h
    obtain ⟨first, k, hm, rfl, rfl⟩ := union_eq_some h
    rw [leaves_unionOf]
    exact (ihm first k hm).append (iha first k hm)
  | alternatives ts ihm iha =>
    rw [TypeReader.TakesLeaves]
    obtain h | ⟨span, r, first, n, rfl, hm, h⟩ := alternatives_cases ts
    · rw [h]
      exact .nil
    · rw [h, Nat.add_assoc, Nat.add_comm, leavesAll_cons]
      exact ((ihm span r rfl first n hm).append (iha span r first n rfl hm)).skip
  | member ts ih =>
    intro t n h
    obtain ⟨element, k, hp, rfl, rfl⟩ := member_eq_some h
    rw [leaves_arrayOf]
    exact (ih element k hp).mono (Nat.le_add_right _ _)
  | primary ts iha iht =>
    intro t n h
    cases primaryRead h with
    | name _ =>
      rw [Nat.add_comm, leaves_reference, QualifiedName.segments_ofSegments, leavesAll_nil,
        List.append_nil]
      exact (leaves_segments _).leaf
    | applied ha =>
      rw [Nat.add_assoc, Nat.add_comm, leaves_reference, QualifiedName.segments_ofSegments]
      exact ((leaves_segments _).append (iha _ _ _ rfl _ _ ha)).leaf
    | literal => exact .nil
    | parenthesized ht _ => exact ((iht _ _ rfl _ _ ht).mono (Nat.le_succ _)).skip
  | typeArguments ts ih =>
    intro args n h
    obtain ⟨span, r, span', after, rfl, -, rfl, rfl⟩ := typeArguments_eq_some h
    exact ((ih span r rfl).mono (Nat.le_succ _)).skip
  | typeList ts iht ihl =>
    rw [TypeReader.TakesLeaves]
    obtain ⟨-, h⟩ | ⟨first, n, ht, -, h⟩ | ⟨first, n, span, r, ht, hd, h⟩ := typeList_cases ts
    · rw [h]
      exact .nil
    · rw [h, leavesAll_cons, leavesAll_nil, List.append_nil]
      exact iht first n ht
    · rw [h, leavesAll_cons]
      refine ((iht first n ht).mono (Nat.le_add_right n 1)).append ?_
      rw [← List.drop_drop, hd]
      exact ihl first n span r ht hd

theorem leaves_ascription (ts : List PlacedToken) :
    Taken ((ascription ts).1.toList.flatMap leaves) ts (ascription ts).2 := by
  fun_cases ascription ts with
  | case1 s r t n h => simpa using (leaves_types .typeExpr r t n h).skip
  | case2 => exact .nil
  | case3 => exact .nil

theorem literals_initializer (ts : List PlacedToken) :
    Taken (initializer ts).1.literals ts (initializer ts).2 := by
  fun_cases initializer ts with
  | case1 value s => exact Taken.nil.leaf
  | case2 => exact .nil
  | case3 value s next r h => exact Taken.nil.leaf
  | case4 => exact .nil

theorem literals_assignment (ts : List PlacedToken) :
    Taken ((assignment ts).1.toList.flatMap Initializer.literals) ts (assignment ts).2 := by
  fun_cases assignment ts with
  | case1 s r e n h =>
    have hr := literals_initializer r
    rw [h] at hr
    simpa using hr.skip
  | case2 => exact .nil

theorem leaves_declarator (h : declarator ts = some (d, n)) : Taken d.leaves ts n := by
  fun_cases declarator ts with
  | case1 name span r t k ht e m he =>
    simp only [declarator, ht, he, Option.some.injEq, Prod.mk.injEq] at h
    obtain ⟨rfl, rfl⟩ := h
    have hk := leaves_ascription r
    rw [ht] at hk
    have hm := literals_assignment (r.drop k)
    rw [he] at hm
    rw [Nat.add_assoc, Nat.add_comm, Declarator.leaves, Declarator.identifiers, List.map_cons,
      List.map_flatMap]
    exact (hk.append hm).leaf
  | case2 => simp_all [declarator]

theorem leaves_declarators (ts : List PlacedToken) :
    Taken ((declarators ts).1.flatMap Declarator.leaves) ts (declarators ts).2 := by
  fun_induction declarators ts with
  | case1 => exact .nil
  | case2 s r d n h more k hk ih =>
    rw [hk] at ih
    rw [Nat.add_assoc, Nat.add_comm, List.flatMap_cons]
    exact ((leaves_declarator h).append ih).skip
  | case3 => exact .nil

/-- What a statement takes after its keyword, and where it ends. -/
theorem leaves_statement {word : Keyword} {span : Text.Span}
    (h : statement word span ts = some (s, n)) : s.keyword = word ∧ Taken s.leaves ts n ∧
      s.span = ⟨span.start, ((ts.take n).getLast?.map (·.span.stop)).getD span.stop⟩ := by
  unfold statement at h
  cases hd : declarator ts with
  | none => rw [hd] at h; cases h
  | some dn =>
    obtain ⟨d, k⟩ := dn
    rw [hd] at h
    simp only [Option.some.injEq, Prod.mk.injEq] at h
    obtain ⟨rfl, rfl⟩ := h
    have hmore := (leaves_declarator hd).append (leaves_declarators (ts.drop k))
    exact ⟨rfl, hmore.mono (Nat.le_add_right _ _), rfl⟩

end Parser

end PathAudit
