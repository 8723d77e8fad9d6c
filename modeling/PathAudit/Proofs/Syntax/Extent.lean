import PathAudit.Proofs.Syntax.TypeReaders

/-! What a reader takes. Every reader of the outline takes tokens that are there, and only tokens
of its own kind: a type takes no equals sign, and no part of a statement after its keyword takes
another keyword or a brace. -/

namespace PathAudit.Parser

def isTypeToken : Token → Bool
  | .identifier _ => true
  | .string _ => true
  | .punctuation mark =>
    mark == .dot || mark == .less || mark == .greater || mark == .comma || mark == .pipe ||
      mark == .openParen || mark == .closeParen || mark == .openBracket || mark == .closeBracket
  | _ => false

/-- The tokens that may follow the keyword within a statement. -/
def isStatementToken : Token → Bool
  | .keyword _ => false
  | .punctuation mark => mark != .openBrace && mark != .closeBrace
  | _ => true

/-- The first `n` tokens are there, and all of them satisfy `p`. -/
structure Covers (p : Token → Bool) (ts : List PlacedToken) (n : Nat) : Prop where
  le : n ≤ ts.length
  all : ∀ t ∈ ts.take n, p t.token

namespace Covers

variable {p q : Token → Bool} {ts : List PlacedToken} {n k : Nat}

theorem zero : Covers p ts 0 := ⟨Nat.zero_le _, by simp⟩

theorem cons {t : PlacedToken} (ht : p t.token) (h : Covers p ts n) : Covers p (t :: ts) (n + 1) := by
  refine ⟨Nat.succ_le_succ h.le, ?_⟩
  intro u hu
  rcases List.mem_cons.1 hu with rfl | hu
  · exact ht
  · exact h.all u hu

theorem of_cons {t : PlacedToken} (h : Covers p (t :: ts) (n + 1)) : p t.token ∧ Covers p ts n :=
  ⟨h.all t List.mem_cons_self, Nat.le_of_succ_le_succ h.le,
    fun u hu => h.all u (List.mem_cons_of_mem t hu)⟩

theorem add (h : Covers p ts n) (h' : Covers p (ts.drop n) k) : Covers p ts (n + k) := by
  have hk := h'.le
  rw [List.length_drop] at hk
  refine ⟨by have := h.le; omega, ?_⟩
  intro t ht
  rw [List.take_add] at ht
  rcases List.mem_append.1 ht with ht | ht
  · exact h.all t ht
  · exact h'.all t ht

theorem mono (hpq : ∀ t, p t → q t) (h : Covers p ts n) : Covers q ts n :=
  ⟨h.le, fun t ht => hpq _ (h.all t ht)⟩

theorem snoc {t : PlacedToken} {r : List PlacedToken} (h : Covers p ts n) (hd : ts.drop n = t :: r)
    (ht : p t.token) : Covers p ts (n + 1) := by
  apply h.add
  rw [hd]
  exact cons ht zero

end Covers

theorem isStatementToken_of_isTypeToken (t : Token) (h : isTypeToken t) : isStatementToken t := by
  unfold isTypeToken at h
  unfold isStatementToken
  split at h
  · rfl
  · rfl
  · revert h
    cases ‹Punctuation› <;> decide
  · exact absurd h Bool.false_ne_true

theorem covers_segments (ts : List PlacedToken) :
    Covers isTypeToken ts (2 * (segments ts).length) := by
  fun_induction segments ts with
  | case1 s name s' r ih => exact .cons rfl (.cons rfl ih)
  | case2 ts => exact .zero

theorem covers_bracketPairs (ts : List PlacedToken) : Covers isTypeToken ts (2 * bracketPairs ts) := by
  fun_induction bracketPairs ts with
  | case1 s s' r ih => exact .cons rfl (.cons rfl ih)
  | case2 ts => exact .zero

theorem covers_pipe (ts : List PlacedToken) : Covers isTypeToken ts (pipe ts) := by
  fun_cases pipe ts with
  | case1 s r => exact .cons rfl .zero
  | case2 => exact .zero

def TypeReader.Covered : TypeReader → List PlacedToken → Prop
  | .typeExpr, ts => ∀ t n, Parser.typeExpr ts = some (t, n) → Covers isTypeToken ts n
  | .union, ts => ∀ t n, Parser.union ts = some (t, n) → Covers isTypeToken ts n
  | .alternatives, ts => Covers isTypeToken ts (Parser.alternatives ts).2
  | .member, ts => ∀ t n, Parser.member ts = some (t, n) → Covers isTypeToken ts n
  | .primary, ts => ∀ t n, Parser.primary ts = some (t, n) → Covers isTypeToken ts n
  | .typeArguments, ts => ∀ args n, Parser.typeArguments ts = some (args, n) → Covers isTypeToken ts n
  | .typeList, ts => Covers isTypeToken ts (Parser.typeList ts).2

theorem covers_types (reader : TypeReader) (ts : List PlacedToken) : reader.Covered ts := by
  induction reader, ts using TypeReader.induction with
  | typeExpr ts ih =>
    intro t n h
    obtain ⟨k, hu, rfl⟩ := typeExpr_eq_some h
    exact (covers_pipe ts).add (ih t k hu)
  | union ts ihm iha =>
    intro t n h
    obtain ⟨first, k, hm, -, rfl⟩ := union_eq_some h
    exact (ihm first k hm).add (iha first k hm)
  | alternatives ts ihm iha =>
    rw [TypeReader.Covered]
    obtain h | ⟨span, r, first, n, rfl, hm, h⟩ := alternatives_cases ts
    · rw [h]
      exact .zero
    · rw [h, Nat.add_assoc, Nat.add_comm]
      exact .cons rfl ((ihm span r rfl first n hm).add (iha span r first n rfl hm))
  | member ts ih =>
    intro t n h
    obtain ⟨element, k, hp, -, rfl⟩ := member_eq_some h
    exact (ih element k hp).add (covers_bracketPairs _)
  | primary ts iha iht =>
    intro t n h
    cases primaryRead h with
    | name _ =>
      rw [Nat.add_comm]
      exact .cons rfl (covers_segments _)
    | applied ha =>
      rw [Nat.add_assoc, Nat.add_comm]
      exact .cons rfl ((covers_segments _).add (iha _ _ _ rfl _ _ ha))
    | literal => exact .cons rfl .zero
    | parenthesized ht hclose => exact .cons rfl ((iht _ _ rfl _ _ ht).snoc hclose rfl)
  | typeArguments ts ih =>
    intro args n h
    obtain ⟨span, r, span', after, rfl, hclose, -, rfl⟩ := typeArguments_eq_some h
    exact .cons rfl ((ih span r rfl).snoc hclose rfl)
  | typeList ts iht ihl =>
    rw [TypeReader.Covered]
    obtain ⟨-, h⟩ | ⟨first, n, ht, -, h⟩ | ⟨first, n, span, r, ht, hd, h⟩ := typeList_cases ts
    · rw [h]
      exact .zero
    · rw [h]
      exact iht first n ht
    · rw [h]
      refine ((iht first n ht).snoc hd rfl).add ?_
      rw [← List.drop_drop, hd]
      exact ihl first n span r ht hd

theorem covers_typeExpr {t : TypeExpr} {ts : List PlacedToken} {n : Nat}
    (h : typeExpr ts = some (t, n)) : Covers isTypeToken ts n :=
  covers_types .typeExpr ts t n h

theorem covers_member {t : TypeExpr} {ts : List PlacedToken} {n : Nat}
    (h : member ts = some (t, n)) : Covers isTypeToken ts n :=
  covers_types .member ts t n h

theorem covers_primary {t : TypeExpr} {ts : List PlacedToken} {n : Nat}
    (h : primary ts = some (t, n)) : Covers isTypeToken ts n :=
  covers_types .primary ts t n h

theorem covers_typeList (ts : List PlacedToken) : Covers isTypeToken ts (typeList ts).2 :=
  covers_types .typeList ts

theorem covers_ascription (ts : List PlacedToken) : Covers isStatementToken ts (ascription ts).2 := by
  fun_cases ascription ts with
  | case1 s r t n h => exact .cons rfl ((covers_typeExpr h).mono isStatementToken_of_isTypeToken)
  | case2 s r h => exact .zero
  | case3 => exact .zero

/-- An initializer that is no literal runs over tokens that end no initializer. -/
theorem covers_run (ts : List PlacedToken) :
    Covers (!endsInitializer ·) ts (ts.takeWhile (!endsInitializer ·.token)).length := by
  induction ts with
  | nil => exact .zero
  | cons t r ih =>
    by_cases h : endsInitializer t.token
    · simpa [h] using Covers.zero
    · simpa [h] using Covers.cons (p := (!endsInitializer ·)) (by simpa using h) ih

theorem isStatementToken_of_not_endsInitializer (t : Token) (h : !endsInitializer t) :
    isStatementToken t := by
  cases t with
  | keyword w => exact h
  | punctuation mark => revert h; cases mark <;> decide
  | string v => rfl
  | template => rfl
  | number => rfl
  | identifier name => rfl
  | other c => rfl

theorem covers_initializer (ts : List PlacedToken) : Covers isStatementToken ts (initializer ts).2 := by
  have hrun := (covers_run ts).mono isStatementToken_of_not_endsInitializer
  fun_cases initializer ts with
  | case1 value s => exact .cons rfl .zero
  | case2 run value s next r h => exact hrun
  | case3 value s next r h => exact .cons rfl .zero
  | case4 run => exact hrun

theorem covers_assignment (ts : List PlacedToken) : Covers isStatementToken ts (assignment ts).2 := by
  fun_cases assignment ts with
  | case1 s r e n h =>
    have := covers_initializer r
    rw [h] at this
    exact .cons rfl this
  | case2 => exact .zero

theorem covers_declarator {ts : List PlacedToken} {d : Declarator} {n : Nat}
    (h : declarator ts = some (d, n)) : Covers isStatementToken ts n := by
  fun_cases declarator ts with
  | case1 name s r t k ht e m he =>
    simp only [declarator, ht, he, Option.some.injEq, Prod.mk.injEq] at h
    obtain ⟨-, rfl⟩ := h
    have hk := covers_ascription r
    rw [ht] at hk
    have hm := covers_assignment (r.drop k)
    rw [he] at hm
    rw [Nat.add_assoc, Nat.add_comm]
    exact .cons rfl (hk.add hm)
  | case2 => simp_all [declarator]

theorem covers_declarators (ts : List PlacedToken) : Covers isStatementToken ts (declarators ts).2 := by
  fun_induction declarators ts with
  | case1 s r h => exact .zero
  | case2 s r d n h more k hk ih =>
    rw [hk] at ih
    rw [Nat.add_assoc, Nat.add_comm]
    exact .cons rfl ((covers_declarator h).add ih)
  | case3 => exact .zero

theorem covers_semicolon (ts : List PlacedToken) : Covers isStatementToken ts (semicolon ts) := by
  fun_cases semicolon ts with
  | case1 s r => exact .cons rfl .zero
  | case2 => exact .zero

/-- What a statement takes after its keyword holds neither a keyword nor a brace. -/
theorem covers_statement {word : Keyword} {span : Text.Span} {ts : List PlacedToken}
    {s : Statement} {n : Nat} (h : statement word span ts = some (s, n)) :
    Covers isStatementToken ts n := by
  unfold statement at h
  cases hd : declarator ts with
  | none => rw [hd] at h; cases h
  | some dn =>
    obtain ⟨d, k⟩ := dn
    rw [hd] at h
    simp only [Option.some.injEq, Prod.mk.injEq] at h
    obtain ⟨-, rfl⟩ := h
    have hmore := (covers_declarator hd).add (covers_declarators (ts.drop k))
    exact hmore.add (covers_semicolon _)

end PathAudit.Parser
