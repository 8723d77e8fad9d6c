import PathAudit.Syntax.Parser

/-! The readers of types by what they go on to. What a reader answers is told by what those answer
that it calls, one lemma a reader; and what each reader inherits from those that it calls holds of
them all. -/

namespace PathAudit.Parser

variable {ts r : List PlacedToken} {t : TypeExpr} {args : List TypeExpr} {n : Nat}

theorem typeExpr_eq_some (h : typeExpr ts = some (t, n)) :
    ∃ k, union (ts.drop (pipe ts)) = some (t, k) ∧ n = pipe ts + k := by
  rw [typeExpr, Option.map_eq_some_iff] at h
  obtain ⟨⟨u, k⟩, hu, he⟩ := h
  obtain ⟨rfl, rfl⟩ := Prod.mk.inj he
  exact ⟨k, hu, rfl⟩

def unionOf (first : TypeExpr) : List TypeExpr → TypeExpr
  | [] => first
  | more => .union (first :: more)

theorem union_eq (ts : List PlacedToken) : union ts = (member ts).map fun m =>
    (unionOf m.1 (alternatives (ts.drop m.2)).1, m.2 + (alternatives (ts.drop m.2)).2) := by
  rw [union]
  cases member ts with
  | none => rfl
  | some m =>
    obtain ⟨first, n⟩ := m
    dsimp only [Option.map_some]
    split
    · next k ha => rw [ha, unionOf]
    · next more k hne ha =>
      rw [ha, unionOf]
      exact hne

theorem union_eq_some (h : union ts = some (t, n)) :
    ∃ first k, member ts = some (first, k) ∧ t = unionOf first (alternatives (ts.drop k)).1 ∧
      n = k + (alternatives (ts.drop k)).2 := by
  rw [union_eq, Option.map_eq_some_iff] at h
  obtain ⟨⟨first, k⟩, hm, he⟩ := h
  obtain ⟨rfl, rfl⟩ := Prod.mk.inj he
  exact ⟨first, k, hm, rfl, rfl⟩

theorem alternatives_cases (ts : List PlacedToken) :
    alternatives ts = ([], 0) ∨ ∃ span r first n, ts = ⟨.punctuation .pipe, span⟩ :: r ∧
      member r = some (first, n) ∧ alternatives ts =
        (first :: (alternatives (r.drop n)).1, 1 + n + (alternatives (r.drop n)).2) := by
  fun_cases alternatives ts with
  | case1 span r hm => exact .inl rfl
  | case2 span r first n hm more k ha => exact .inr ⟨span, r, first, n, rfl, hm, by rw [ha]⟩
  | case3 => exact .inl rfl

theorem member_eq (ts : List PlacedToken) : member ts = (primary ts).map fun p =>
    (arrayOf p.1 (bracketPairs (ts.drop p.2)), p.2 + 2 * bracketPairs (ts.drop p.2)) := by
  rw [member]
  cases primary ts <;> rfl

theorem member_eq_some (h : member ts = some (t, n)) :
    ∃ element k, primary ts = some (element, k) ∧ t = arrayOf element (bracketPairs (ts.drop k)) ∧
      n = k + 2 * bracketPairs (ts.drop k) := by
  rw [member_eq, Option.map_eq_some_iff] at h
  obtain ⟨⟨element, k⟩, hp, he⟩ := h
  obtain ⟨rfl, rfl⟩ := Prod.mk.inj he
  exact ⟨element, k, hp, rfl, rfl⟩

/-- What makes a primary of the first `n` tokens. -/
inductive PrimaryRead : List PlacedToken → TypeExpr → Nat → Prop
  | name {name span r} : typeArguments (r.drop (2 * (segments r).length)) = none →
      PrimaryRead (⟨.identifier name, span⟩ :: r)
        (.reference (.ofSegments ⟨name, span⟩ (segments r)) []) (1 + 2 * (segments r).length)
  | applied {name span r args n} :
      typeArguments (r.drop (2 * (segments r).length)) = some (args, n) →
      PrimaryRead (⟨.identifier name, span⟩ :: r)
        (.reference (.ofSegments ⟨name, span⟩ (segments r)) args) (1 + 2 * (segments r).length + n)
  | literal {value span r} : PrimaryRead (⟨.string value, span⟩ :: r) (.literal value) 1
  | parenthesized {span r inner n span' after} : typeExpr r = some (inner, n) →
      r.drop n = ⟨.punctuation .closeParen, span'⟩ :: after →
      PrimaryRead (⟨.punctuation .openParen, span⟩ :: r) (.parenthesized inner) (n + 2)

theorem primaryRead (h : primary ts = some (t, n)) : PrimaryRead ts t n := by
  revert h
  fun_cases primary ts with
  | case1 name span r more q ha => rintro ⟨⟩; exact .name ha
  | case2 name span r more q args k ha => rintro ⟨⟩; exact .applied ha
  | case3 value span r => rintro ⟨⟩; exact .literal
  | case4 span r ht => exact nofun
  | case5 span r inner k ht span' after hclose => rintro ⟨⟩; exact .parenthesized ht hclose
  | case6 span r inner k ht hopen => exact nofun
  | case7 => exact nofun

theorem typeArguments_eq_some (h : typeArguments ts = some (args, n)) :
    ∃ span r span' after, ts = ⟨.punctuation .less, span⟩ :: r ∧
      r.drop (typeList r).2 = ⟨.punctuation .greater, span'⟩ :: after ∧
      args = (typeList r).1 ∧ n = (typeList r).2 + 2 := by
  revert h
  fun_cases typeArguments ts with
  | case1 span r more k hl span' after hclose =>
    rintro ⟨⟩
    exact ⟨span, r, span', after, rfl, by rwa [hl], by rw [hl], by rw [hl]⟩
  | case2 => exact nofun
  | case3 => exact nofun

theorem typeList_none (ht : typeExpr ts = none) : typeList ts = ([], 0) := by
  rw [typeList, ht]

theorem typeList_comma {s : Text.Span} (ht : typeExpr ts = some (t, n))
    (hd : ts.drop n = ⟨.punctuation .comma, s⟩ :: r) :
    typeList ts = (t :: (typeList r).1, n + 1 + (typeList r).2) := by
  rw [typeList, ht]
  dsimp only
  split
  · next s' r' h =>
    rw [hd] at h
    cases h
    rfl
  · next h =>
    exact absurd hd (h s r)

theorem typeList_last (ht : typeExpr ts = some (t, n))
    (hd : ∀ s r, ts.drop n = ⟨.punctuation .comma, s⟩ :: r → False) :
    typeList ts = ([t], n) := by
  rw [typeList, ht]
  dsimp only
  split
  · next s' r' h =>
    exact (hd _ _ h).elim
  · rfl

theorem typeList_cases (ts : List PlacedToken) :
    typeExpr ts = none ∧ typeList ts = ([], 0) ∨
    (∃ first n, typeExpr ts = some (first, n) ∧
      (∀ span r, ts.drop n = ⟨.punctuation .comma, span⟩ :: r → False) ∧
      typeList ts = ([first], n)) ∨
    ∃ first n span r, typeExpr ts = some (first, n) ∧
      ts.drop n = ⟨.punctuation .comma, span⟩ :: r ∧
      typeList ts = (first :: (typeList r).1, n + 1 + (typeList r).2) := by
  fun_cases typeList ts with
  | case1 ht => exact .inl ⟨ht, rfl⟩
  | case2 first n ht span r hd more k hl =>
    exact .inr (.inr ⟨first, n, span, r, ht, hd, by rw [hl]⟩)
  | case3 first n ht hd => exact .inr (.inl ⟨first, n, ht, hd, rfl⟩)

inductive TypeReader
  | typeExpr
  | union
  | alternatives
  | member
  | primary
  | typeArguments
  | typeList

/-- A reader that calls another at the same tokens ranks above it. -/
def TypeReader.rank : TypeReader → Nat
  | .typeList => 4
  | .typeExpr => 3
  | .union => 2
  | .alternatives => 1
  | .member => 1
  | .primary => 0
  | .typeArguments => 0

/-- What each reader inherits from those that it calls holds of every reader at all tokens. -/
@[elab_as_elim]
theorem TypeReader.induction {motive : TypeReader → List PlacedToken → Prop}
    (typeExpr : ∀ ts, motive .union (ts.drop (pipe ts)) → motive .typeExpr ts)
    (union : ∀ ts, motive .member ts →
      (∀ first n, Parser.member ts = some (first, n) → motive .alternatives (ts.drop n)) →
      motive .union ts)
    (alternatives : ∀ ts,
      (∀ span r, ts = ⟨.punctuation .pipe, span⟩ :: r → motive .member r) →
      (∀ span r first n, ts = ⟨.punctuation .pipe, span⟩ :: r →
        Parser.member r = some (first, n) → motive .alternatives (r.drop n)) →
      motive .alternatives ts)
    (member : ∀ ts, motive .primary ts → motive .member ts)
    (primary : ∀ ts,
      (∀ name span r, ts = ⟨.identifier name, span⟩ :: r →
        motive .typeArguments (r.drop (2 * (segments r).length))) →
      (∀ span r, ts = ⟨.punctuation .openParen, span⟩ :: r → motive .typeExpr r) →
      motive .primary ts)
    (typeArguments : ∀ ts,
      (∀ span r, ts = ⟨.punctuation .less, span⟩ :: r → motive .typeList r) →
      motive .typeArguments ts)
    (typeList : ∀ ts, motive .typeExpr ts →
      (∀ first n span r, Parser.typeExpr ts = some (first, n) →
        ts.drop n = ⟨.punctuation .comma, span⟩ :: r → motive .typeList r) →
      motive .typeList ts)
    (reader : TypeReader) (ts : List PlacedToken) : motive reader ts := by
  -- Each call leaves fewer tokens, or the same tokens to a reader of lower rank.
  induction hsize : 5 * ts.length + reader.rank using Nat.strongRecOn generalizing reader ts with
  | _ size ih =>
    have call (callee : TypeReader) (rest : List PlacedToken)
        (h : 5 * rest.length + callee.rank < 5 * ts.length + reader.rank) : motive callee rest :=
      ih _ (hsize ▸ h) callee rest rfl
    cases reader with
    | typeExpr =>
      apply typeExpr
      apply call
      simp only [List.length_drop, rank]
      omega
    | union =>
      apply union
      · apply call
        exact Nat.lt_succ_self _
      · intro first n _
        apply call
        simp only [List.length_drop, rank]
        omega
    | alternatives =>
      apply alternatives
      · rintro span r rfl
        apply call
        simp only [List.length_cons, rank]
        omega
      · rintro span r first n rfl _
        apply call
        simp only [List.length_cons, List.length_drop, rank]
        omega
    | member => exact member ts (call .primary ts (Nat.lt_succ_self _))
    | primary =>
      apply primary
      · rintro name span r rfl
        apply call
        simp only [List.length_cons, List.length_drop, rank]
        omega
      · rintro span r rfl
        apply call
        simp only [List.length_cons, rank]
        omega
    | typeArguments =>
      apply typeArguments
      rintro span r rfl
      apply call
      simp only [List.length_cons, rank]
      omega
    | typeList =>
      apply typeList
      · apply call
        exact Nat.lt_succ_self _
      · intro first n span r _ hd
        have hlen := congrArg List.length hd
        rw [List.length_drop, List.length_cons] at hlen
        apply call
        simp only [rank]
        omega

end PathAudit.Parser
