import PathAudit.Proofs.Syntax.Extent
import PathAudit.Proofs.Syntax.Print

/-! A written type is read back, wherever its tokens stand, when what follows does not go on with
it. Brackets are written after their element but read after the innermost of them, so a member of
a union is read together with any number of bracket pairs behind it. -/

namespace PathAudit

open Token

variable {ts r : List PlacedToken} {t tok : Token} {s a b rest : List Token} {mark : Punctuation}
  {n j : Nat}

def Avoids (marks : List Punctuation) (s : List Token) : Prop :=
  ∀ mark ∈ marks, s.head? ≠ some (.punctuation mark)

theorem Avoids.mono {marks more : List Punctuation} (h : Avoids more s)
    (hsub : ∀ mark ∈ marks, mark ∈ more) : Avoids marks s :=
  fun mark hm => h mark (hsub mark hm)

theorem avoids_cons {marks : List Punctuation} :
    Avoids marks (.punctuation mark :: s) ↔ mark ∉ marks := by
  constructor
  · intro h hm
    exact h mark hm rfl
  · rintro h m hm ⟨⟩
    exact h hm

theorem joined_singleton (x : List Token) : joined mark [x] = x := by
  rw [joined, List.intercalate_singleton]

theorem joined_cons_cons (x y : List Token) (zs : List (List Token)) :
    joined mark (x :: y :: zs) = x ++ .punctuation mark :: joined mark (y :: zs) := by
  rw [joined, List.intercalate_cons_cons, joined, List.append_assoc, List.singleton_append]

theorem joined_cons (x : List Token) (xs : List (List Token)) :
    joined mark (x :: xs) = x ++ xs.flatMap (.punctuation mark :: ·) :=
  intercalate_cons_flatMap _ x xs

theorem QualifiedName.exists_ofSegments (q : QualifiedName) :
    ∃ first more, q = ofSegments first more := by
  obtain ⟨qs, last⟩ := q
  induction qs with
  | nil => exact ⟨last, [], rfl⟩
  | cons i qs ih =>
    obtain ⟨first, more, h⟩ := ih
    exact ⟨i, first :: more, by rw [ofSegments, ← h]⟩

theorem QualifiedName.bare_ofSegments (first : Identifier) (more : List Identifier) :
    (ofSegments first more).bare = ofSegments first.bare (more.map Identifier.bare) := by
  induction more generalizing first with
  | nil => rfl
  | cons i more ih => rw [List.map_cons, ofSegments, ofSegments, ← ih]; rfl

theorem QualifiedName.tokens_ofSegments (first : Identifier) (more : List Identifier) :
    (ofSegments first more).tokens =
      .identifier first.name :: more.flatMap fun i => [.punctuation .dot, .identifier i.name] := by
  rw [tokens, segments_ofSegments, List.map_cons, joined_cons, List.flatMap_map]
  rfl

theorem exists_of_map_eq_cons (h : ts.map PlacedToken.token = t :: s) :
    ∃ span r, ts = ⟨t, span⟩ :: r ∧ r.map PlacedToken.token = s := by
  obtain ⟨⟨u, span⟩, r, rfl, rfl, rfl⟩ := List.map_eq_cons_iff.1 h
  exact ⟨span, r, rfl, rfl⟩

theorem map_drop (h : ts.map PlacedToken.token = a ++ b) :
    (ts.drop a.length).map PlacedToken.token = b := by
  rw [List.map_drop, h, List.drop_left]

theorem map_drop_of_eq (h : ts.map PlacedToken.token = a ++ b) (hn : n = a.length) :
    (ts.drop n).map PlacedToken.token = b := by
  rw [hn, map_drop h]

theorem ne_of_head (h : ts.map PlacedToken.token = s) (hs : s.head? ≠ some tok) (span : Text.Span)
    (r : List PlacedToken) : ts ≠ ⟨tok, span⟩ :: r := by
  rintro rfl
  rw [← h] at hs
  exact hs rfl

namespace Parser

theorem segments_read (more : List Identifier)
    (h : ts.map PlacedToken.token =
      more.flatMap (fun i => [.punctuation .dot, .identifier i.name]) ++ rest)
    (hrest : rest.head? ≠ some (.punctuation .dot)) :
    (segments ts).map Identifier.bare = more.map Identifier.bare := by
  induction more generalizing ts with
  | nil =>
    rw [segments]
    · intro span name span' r hts
      exact ne_of_head h hrest _ _ hts
  | cons i more ih =>
    obtain ⟨span, _, rfl, hdot⟩ := exists_of_map_eq_cons h
    obtain ⟨span', r, rfl, hname⟩ := exists_of_map_eq_cons hdot
    rw [segments, List.map_cons, ih hname]
    rfl

def brackets : Nat → List Token
  | 0 => []
  | n + 1 => .punctuation .openBracket :: .punctuation .closeBracket :: brackets n

theorem bracketPairs_read (h : ts.map PlacedToken.token = brackets n ++ rest)
    (hrest : rest.head? ≠ some (.punctuation .openBracket)) : bracketPairs ts = n := by
  induction n generalizing ts with
  | zero =>
    rw [bracketPairs]
    intro span span' r hts
    exact ne_of_head h hrest _ _ hts
  | succ n ih =>
    obtain ⟨span, _, rfl, hopen⟩ := exists_of_map_eq_cons h
    obtain ⟨span', r, rfl, hclose⟩ := exists_of_map_eq_cons hopen
    rw [bracketPairs, ih hclose]

theorem head_brackets (hrest : Avoids [.dot, .less, .openBracket] rest) :
    Avoids [.dot, .less] (brackets n ++ rest) := by
  cases n with
  | zero => exact hrest.mono (by decide)
  | succ n => intro mark hm; revert hm; cases mark <;> simp [brackets]

/-- A member that is written with `j` bracket pairs after it is read as so many arrays of it. -/
def ReadsMember (t : TypeExpr) : Prop :=
  ∀ j ts rest, ts.map PlacedToken.token = t.tokens ++ (brackets j ++ rest) →
    Avoids [.dot, .less, .openBracket] rest →
    ∃ u, u.bare = t.bare ∧ member ts = some (arrayOf u j, t.tokens.length + 2 * j)

def ReadsType (t : TypeExpr) : Prop :=
  ∀ ts rest, ts.map PlacedToken.token = t.tokens ++ rest →
    Avoids [.dot, .less, .openBracket, .pipe] rest →
    ∃ u, u.bare = t.bare ∧ typeExpr ts = some (u, t.tokens.length)

theorem member_of_primary {u : TypeExpr} (h : primary ts = some (u, n))
    (hn : (ts.drop n).map PlacedToken.token = brackets j ++ rest)
    (hrest : Avoids [.dot, .less, .openBracket] rest) :
    member ts = some (arrayOf u j, n + 2 * j) := by
  have hpairs : bracketPairs (ts.drop n) = j := bracketPairs_read hn (hrest _ (by simp))
  rw [member, h]
  simp only [hpairs]

theorem pipe_of_member {u : TypeExpr} (h : member ts = some (u, n)) : pipe ts = 0 := by
  rw [pipe]
  rintro span r rfl
  have hnone : primary (⟨.punctuation .pipe, span⟩ :: r) = none := by
    rw [primary] <;> simp
  rw [member, hnone] at h
  cases h

theorem alternatives_none (h : ts.map PlacedToken.token = rest)
    (hrest : rest.head? ≠ some (.punctuation .pipe)) : alternatives ts = ([], 0) := by
  rw [alternatives]
  intro span r hts
  exact ne_of_head h hrest _ _ hts

theorem typeArguments_none (h : ts.map PlacedToken.token = rest)
    (hrest : rest.head? ≠ some (.punctuation .less)) : typeArguments ts = none := by
  rw [typeArguments]
  intro span r hts
  exact ne_of_head h hrest _ _ hts

theorem typeList_read (t : TypeExpr) (more : List TypeExpr) (hreads : ∀ u ∈ t :: more, ReadsType u)
    (h : ts.map PlacedToken.token =
      joined .comma ((t :: more).map TypeExpr.tokens) ++ .punctuation .greater :: rest) :
    ∃ us, us.map TypeExpr.bare = (t :: more).map TypeExpr.bare ∧
      typeList ts = (us, (joined .comma ((t :: more).map TypeExpr.tokens)).length) := by
  induction more generalizing t ts with
  | nil =>
    simp only [List.map_singleton, joined_singleton] at h ⊢
    obtain ⟨u, hu, hread⟩ := hreads t (by simp) ts _ h (avoids_cons.2 (by decide))
    refine ⟨[u], by rw [List.map_singleton, hu], typeList_last hread ?_⟩
    intro span r hts
    exact ne_of_head (map_drop h) (by simp) _ _ hts
  | cons t' more ih =>
    simp only [List.map_cons, joined_cons_cons, List.append_assoc] at h ⊢
    obtain ⟨u, hu, hread⟩ := hreads t (by simp) ts _ h (avoids_cons.2 (by decide))
    obtain ⟨span, r, hts, hr⟩ := exists_of_map_eq_cons (map_drop h)
    obtain ⟨us, hus, hlist⟩ := ih t' (fun v hv => hreads v (List.mem_cons_of_mem _ hv)) hr
    refine ⟨u :: us, by rw [List.map_cons, hu, hus, List.map_cons], ?_⟩
    rw [typeList_comma hread hts, hlist, List.length_append, List.length_cons]
    simp only [List.map_cons, Nat.add_assoc, Nat.add_comm 1]

theorem typeArguments_read (t : TypeExpr) (more : List TypeExpr)
    (hreads : ∀ u ∈ t :: more, ReadsType u)
    (h : ts.map PlacedToken.token = .punctuation .less ::
      (joined .comma ((t :: more).map TypeExpr.tokens) ++ .punctuation .greater :: rest)) :
    ∃ us, us.map TypeExpr.bare = (t :: more).map TypeExpr.bare ∧
      typeArguments ts = some (us, (joined .comma ((t :: more).map TypeExpr.tokens)).length + 2) := by
  obtain ⟨span, r, rfl, hr⟩ := exists_of_map_eq_cons h
  obtain ⟨us, hus, hlist⟩ := typeList_read t more hreads hr
  obtain ⟨span', r', hclose, -⟩ := exists_of_map_eq_cons (map_drop hr)
  refine ⟨us, hus, ?_⟩
  rw [typeArguments, hlist]
  simp only [hclose]

/-- A written name is read back: its first segment, and the segments after it. -/
theorem name_read (first : Identifier) (more : List Identifier)
    (h : ts.map PlacedToken.token = (QualifiedName.ofSegments first more).tokens ++ s)
    (hs : s.head? ≠ some (.punctuation .dot)) :
    ∃ span r, ts = ⟨.identifier first.name, span⟩ :: r ∧
      (QualifiedName.ofSegments ⟨first.name, span⟩ (segments r)).bare =
        (QualifiedName.ofSegments first more).bare ∧
      (QualifiedName.ofSegments first more).tokens.length = 1 + 2 * (segments r).length ∧
      (r.drop (2 * (segments r).length)).map PlacedToken.token = s := by
  rw [QualifiedName.tokens_ofSegments] at h ⊢
  obtain ⟨span, r, rfl, hr⟩ := exists_of_map_eq_cons h
  have hmore := segments_read more hr hs
  have hlen : (segments r).length = more.length := by simpa using congrArg List.length hmore
  have hdots : (more.flatMap fun i => [Token.punctuation .dot, .identifier i.name]).length =
      2 * (segments r).length := by
    rw [hlen, List.length_flatMap]
    simp [List.map_const', Nat.mul_comm]
  refine ⟨span, r, rfl, ?_, ?_, map_drop_of_eq hr hdots.symm⟩
  · rw [QualifiedName.bare_ofSegments, QualifiedName.bare_ofSegments, hmore]
    rfl
  · rw [List.length_cons, hdots, Nat.add_comm]

theorem primary_reference (name : QualifiedName) (args : List TypeExpr)
    (hreads : ∀ t ∈ args, ReadsType t)
    (h : ts.map PlacedToken.token = (TypeExpr.reference name args).tokens ++ rest)
    (hrest : Avoids [.dot, .less] rest) :
    ∃ u, u.bare = (TypeExpr.reference name args).bare ∧
      primary ts = some (u, (TypeExpr.reference name args).tokens.length) := by
  obtain ⟨first, more, rfl⟩ := name.exists_ofSegments
  cases args with
  | nil =>
    obtain ⟨span, r, rfl, hbare, hlen, hr⟩ := name_read first more h (hrest _ (by simp))
    refine ⟨.reference (.ofSegments ⟨first.name, span⟩ (segments r)) [], ?_, ?_⟩
    · rw [TypeExpr.bare, TypeExpr.bare, hbare]
    · rw [primary, typeArguments_none hr (hrest _ (by simp)), TypeExpr.tokens, hlen]
  | cons t args =>
    rw [TypeExpr.tokens, TypeExpr.tokensEach_eq_map, List.append_assoc, List.cons_append,
      List.append_assoc, List.singleton_append] at h
    obtain ⟨span, r, rfl, hbare, hlen, hr⟩ := name_read first more h (by simp)
    obtain ⟨us, hus, hargs⟩ := typeArguments_read t args hreads hr
    refine ⟨.reference (.ofSegments ⟨first.name, span⟩ (segments r)) us, ?_, ?_⟩
    · rw [TypeExpr.bare, TypeExpr.bare, hbare, TypeExpr.bareAll_eq_map, TypeExpr.bareAll_eq_map, hus]
    · rw [primary, hargs, TypeExpr.tokens, TypeExpr.tokensEach_eq_map, List.length_append, hlen]
      simp only [List.length_cons, List.length_append, List.length_nil, List.map_cons]

theorem primary_parenthesized (t : TypeExpr) (hreads : ReadsType t)
    (h : ts.map PlacedToken.token = (TypeExpr.parenthesized t).tokens ++ rest) :
    ∃ u, u.bare = (TypeExpr.parenthesized t).bare ∧
      primary ts = some (u, (TypeExpr.parenthesized t).tokens.length) := by
  rw [TypeExpr.tokens, List.cons_append, List.append_assoc] at h
  obtain ⟨span, r, rfl, hr⟩ := exists_of_map_eq_cons h
  obtain ⟨u, hu, hread⟩ := hreads r _ hr (avoids_cons.2 (by decide))
  obtain ⟨span', r', hclose, -⟩ := exists_of_map_eq_cons (map_drop hr)
  refine ⟨.parenthesized u, by rw [TypeExpr.bare, TypeExpr.bare, hu], ?_⟩
  rw [primary, hread]
  simp only [hclose, TypeExpr.tokens, List.length_cons, List.length_append, List.length_nil]

theorem primary_literal (value : String)
    (h : ts.map PlacedToken.token = (TypeExpr.literal value).tokens ++ rest) :
    primary ts = some (.literal value, 1) := by
  obtain ⟨span, r, rfl, -⟩ := exists_of_map_eq_cons h
  rw [primary]

/-- The further members of a union are read back up to where no pipe goes on with them. -/
theorem alternatives_read (ms : List TypeExpr) (hreads : ∀ m ∈ ms, ReadsMember m)
    (h : ts.map PlacedToken.token =
      (ms.map TypeExpr.tokens).flatMap (.punctuation .pipe :: ·) ++ rest)
    (hrest : Avoids [.dot, .less, .openBracket, .pipe] rest) :
    ∃ us, us.map TypeExpr.bare = ms.map TypeExpr.bare ∧ alternatives ts =
      (us, ((ms.map TypeExpr.tokens).flatMap (.punctuation .pipe :: ·)).length) := by
  induction ms generalizing ts with
  | nil => exact ⟨[], rfl, alternatives_none h (hrest _ (by simp))⟩
  | cons m ms ih =>
    rw [List.map_cons, List.flatMap_cons, List.append_assoc, List.cons_append] at h
    obtain ⟨span, r, rfl, hr⟩ := exists_of_map_eq_cons h
    have hnext : Avoids [.dot, .less, .openBracket]
        ((ms.map TypeExpr.tokens).flatMap (.punctuation .pipe :: ·) ++ rest) := by
      cases ms with
      | nil => exact hrest.mono (by decide)
      | cons m' ms => exact avoids_cons.2 (by decide)
    obtain ⟨u, hu, hread⟩ := hreads m (by simp) 0 r _ hr hnext
    obtain ⟨us, hus, halt⟩ := ih (fun v hv => hreads v (List.mem_cons_of_mem _ hv)) (map_drop hr)
    refine ⟨u :: us, by rw [List.map_cons, hu, hus, List.map_cons], ?_⟩
    rw [alternatives, hread]
    simp only [Nat.mul_zero, Nat.add_zero, halt, arrayOf, List.map_cons, List.flatMap_cons,
      List.length_append, List.length_cons, Prod.mk.injEq, true_and]
    omega

theorem typeExpr_of_member {u : TypeExpr} (h : member ts = some (u, n))
    (halt : alternatives (ts.drop n) = ([], 0)) : typeExpr ts = some (u, n) := by
  rw [typeExpr, pipe_of_member h, List.drop_zero, union, h]
  simp [halt]

theorem typeExpr_of_members {u v : TypeExpr} {vs : List TypeExpr} {k : Nat}
    (h : member ts = some (u, n)) (halt : alternatives (ts.drop n) = (v :: vs, k)) :
    typeExpr ts = some (.union (u :: v :: vs), n + k) := by
  rw [typeExpr, pipe_of_member h, List.drop_zero, union, h]
  simp [halt]

theorem readsMember_of_primary {t : TypeExpr}
    (h : ∀ ts rest, ts.map PlacedToken.token = t.tokens ++ rest → Avoids [.dot, .less] rest →
      ∃ u, u.bare = t.bare ∧ primary ts = some (u, t.tokens.length)) : ReadsMember t := by
  intro j ts rest hts hrest
  obtain ⟨u, hu, hread⟩ := h ts _ hts (head_brackets hrest)
  exact ⟨u, hu, member_of_primary hread (map_drop hts) hrest⟩

/-- Brackets after an array belong to the array of what the array is of. -/
theorem readsMember_array {t : TypeExpr} (h : ReadsMember t) : ReadsMember (.array t) := by
  intro j ts rest hts hrest
  have hpair : (TypeExpr.array t).tokens ++ (brackets j ++ rest) =
      t.tokens ++ (brackets (j + 1) ++ rest) := by
    rw [TypeExpr.tokens, brackets]
    simp
  obtain ⟨u, hu, hread⟩ := h (j + 1) ts rest (hts.trans hpair) hrest
  refine ⟨.array u, by rw [TypeExpr.bare, TypeExpr.bare, hu], ?_⟩
  rw [hread, arrayOf, TypeExpr.tokens, List.length_append]
  simp only [List.length_cons, List.length_nil, Option.some.injEq, Prod.mk.injEq, true_and]
  omega

theorem readsType_of_member {t : TypeExpr} (h : ReadsMember t) : ReadsType t := by
  intro ts rest hts hrest
  obtain ⟨u, hu, hread⟩ := h 0 ts rest hts (hrest.mono (by decide))
  refine ⟨u, hu, typeExpr_of_member hread (alternatives_none ?_ (hrest _ (by simp)))⟩
  exact map_drop hts

theorem readsType_union {m m' : TypeExpr} {ms : List TypeExpr}
    (h : ∀ t ∈ m :: m' :: ms, ReadsMember t) : ReadsType (.union (m :: m' :: ms)) := by
  intro ts rest hts hrest
  have htokens : (TypeExpr.union (m :: m' :: ms)).tokens =
      m.tokens ++ ((m' :: ms).map TypeExpr.tokens).flatMap (.punctuation .pipe :: ·) := by
    rw [TypeExpr.tokens, TypeExpr.tokensEach_eq_map, List.map_cons, joined_cons]
  rw [htokens, List.append_assoc] at hts
  obtain ⟨u, hu, hread⟩ := h m (by simp) 0 ts _ hts (avoids_cons.2 (by decide))
  obtain ⟨us, hus, halt⟩ := alternatives_read (m' :: ms)
    (fun t ht => h t (List.mem_cons_of_mem _ ht)) (map_drop hts) hrest
  obtain ⟨v, vs, rfl⟩ : ∃ v vs, us = v :: vs := by
    cases us with
    | nil => cases hus
    | cons v vs => exact ⟨v, vs, rfl⟩
  have hbare : (u :: v :: vs).map TypeExpr.bare = (m :: m' :: ms).map TypeExpr.bare := by
    rw [List.map_cons, hu, hus]
    rfl
  refine ⟨.union (u :: v :: vs), ?_, ?_⟩
  · rw [TypeExpr.bare, TypeExpr.bare, TypeExpr.bareAll_eq_map, TypeExpr.bareAll_eq_map, hbare]
  · rw [typeExpr_of_members hread halt, htokens, List.length_append]
    rfl

/-- Every type that can be written is read back, and as a member of a union unless it is one. -/
theorem reads_type (t : TypeExpr) (ht : t.isPrintable) :
    ReadsType t ∧ (t.isUnion = false → ReadsMember t) := by
  have of_member : ∀ {t : TypeExpr}, ReadsMember t →
      ReadsType t ∧ (t.isUnion = false → ReadsMember t) :=
    fun h => ⟨readsType_of_member h, fun _ => h⟩
  induction t using TypeExpr.induction with
  | reference name args ih =>
    rw [TypeExpr.isPrintable, TypeExpr.allPrintable_eq_all, Bool.and_eq_true] at ht
    have hall := List.all_eq_true.1 ht.2
    refine of_member (readsMember_of_primary fun ts rest hts hrest => ?_)
    exact primary_reference name args (fun t hm => (ih t hm (hall t hm)).1) hts hrest
  | array element ih =>
    rw [TypeExpr.isPrintable, Bool.and_eq_true, Bool.not_eq_true'] at ht
    exact of_member (readsMember_array ((ih ht.2).2 ht.1))
  | union members ih =>
    rw [TypeExpr.isPrintable, TypeExpr.allPrintable_eq_all, Bool.and_eq_true, Bool.and_eq_true,
      decide_eq_true_eq, List.all_eq_true, List.all_eq_true] at ht
    obtain ⟨⟨hlen, hflat⟩, hall⟩ := ht
    refine ⟨?_, fun h => by cases h⟩
    match members with
    | [] => cases hlen
    | [m] => exact absurd hlen (Nat.lt_irrefl 1)
    | m :: m' :: ms =>
      refine readsType_union fun t hm => (ih t hm (hall t hm)).2 ?_
      simpa using hflat t hm
  | parenthesized inner ih =>
    refine of_member (readsMember_of_primary fun ts rest hts _ => ?_)
    exact primary_parenthesized inner (ih ht).1 hts
  | literal value =>
    refine of_member (readsMember_of_primary fun ts rest hts _ => ?_)
    exact ⟨.literal value, rfl, primary_literal value hts⟩

end Parser

end PathAudit
