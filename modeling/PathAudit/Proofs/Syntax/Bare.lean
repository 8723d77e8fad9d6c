import PathAudit.Declaration
import PathAudit.Proofs.Syntax.Outline
import PathAudit.Proofs.Syntax.ReadType

/-! Places are carried along and never looked at. What is read of tokens without their places is what is
read of them, without places, so texts with the same tokens have the same outline and the same
declarations, wherever these stand. -/

namespace PathAudit

def PlacedToken.bare (t : PlacedToken) : PlacedToken := ⟨t.token, default⟩

variable {ts r : List PlacedToken} {tok : Token} {span : Text.Span} {n : Nat}

theorem exists_of_map_bare_eq_cons (h : ts.map PlacedToken.bare = ⟨tok, span⟩ :: r) :
    ∃ span' r', ts = ⟨tok, span'⟩ :: r' := by
  obtain ⟨⟨u, span'⟩, r', rfl, he, -⟩ := List.map_eq_cons_iff.1 h
  cases he
  exact ⟨span', r', rfl⟩

theorem bare_ne_cons (hne : ∀ s r, ts = ⟨tok, s⟩ :: r → False) (s : Text.Span)
    (r : List PlacedToken) : ts.map PlacedToken.bare = ⟨tok, s⟩ :: r → False := by
  intro h
  obtain ⟨_, _, h'⟩ := exists_of_map_bare_eq_cons h
  exact hne _ _ h'

namespace Parser

@[simp] theorem segments_bare (ts : List PlacedToken) :
    segments (ts.map PlacedToken.bare) = (segments ts).map Identifier.bare := by
  fun_induction segments ts with
  | case1 s name s' r ih =>
    simp only [List.map_cons, PlacedToken.bare, segments] at ih ⊢
    rw [ih]
    rfl
  | case2 ts h =>
    rw [segments]
    · rfl
    · intro s name s' r hts
      obtain ⟨_, r', rfl⟩ := exists_of_map_bare_eq_cons hts
      obtain ⟨_, r'', rfl⟩ := exists_of_map_bare_eq_cons (List.cons.inj hts).2
      exact h _ _ _ _ rfl

@[simp] theorem bracketPairs_bare (ts : List PlacedToken) :
    bracketPairs (ts.map PlacedToken.bare) = bracketPairs ts := by
  fun_induction bracketPairs ts with
  | case1 s s' r ih =>
    simp only [List.map_cons, PlacedToken.bare, bracketPairs] at ih ⊢
    rw [ih]
  | case2 ts h =>
    rw [bracketPairs]
    intro s s' r hts
    obtain ⟨_, r', rfl⟩ := exists_of_map_bare_eq_cons hts
    obtain ⟨_, r'', rfl⟩ := exists_of_map_bare_eq_cons (List.cons.inj hts).2
    exact h _ _ _ rfl

@[simp] theorem pipe_bare (ts : List PlacedToken) : pipe (ts.map PlacedToken.bare) = pipe ts := by
  fun_cases pipe ts with
  | case1 s r => rfl
  | case2 _ h =>
    rw [pipe]
    intro s r hts
    obtain ⟨_, r', rfl⟩ := exists_of_map_bare_eq_cons hts
    exact h _ _ rfl

theorem bare_arrayOf (t : TypeExpr) (n : Nat) : (arrayOf t n).bare = arrayOf t.bare n := by
  induction n generalizing t with
  | zero => rfl
  | succ n ih => rw [arrayOf, ih, arrayOf, TypeExpr.bare]

theorem bare_unionOf (first : TypeExpr) (more : List TypeExpr) :
    (unionOf first more).bare = unionOf first.bare (TypeExpr.bareAll more) := by
  cases more <;> rfl

/-- Reading what is bare is reading and then leaving the places out. -/
def TypeReader.Forgets : TypeReader → List PlacedToken → Prop
  | .typeExpr, ts => Parser.typeExpr (ts.map PlacedToken.bare) =
      (Parser.typeExpr ts).map (Prod.map TypeExpr.bare id)
  | .union, ts => Parser.union (ts.map PlacedToken.bare) =
      (Parser.union ts).map (Prod.map TypeExpr.bare id)
  | .alternatives, ts => Parser.alternatives (ts.map PlacedToken.bare) =
      Prod.map TypeExpr.bareAll id (Parser.alternatives ts)
  | .member, ts => Parser.member (ts.map PlacedToken.bare) =
      (Parser.member ts).map (Prod.map TypeExpr.bare id)
  | .primary, ts => Parser.primary (ts.map PlacedToken.bare) =
      (Parser.primary ts).map (Prod.map TypeExpr.bare id)
  | .typeArguments, ts => Parser.typeArguments (ts.map PlacedToken.bare) =
      (Parser.typeArguments ts).map (Prod.map TypeExpr.bareAll id)
  | .typeList, ts => Parser.typeList (ts.map PlacedToken.bare) =
      Prod.map TypeExpr.bareAll id (Parser.typeList ts)

theorem primary_bare
    (harguments : ∀ name span r, ts = ⟨.identifier name, span⟩ :: r →
      typeArguments ((r.drop (2 * (segments r).length)).map PlacedToken.bare) =
        (typeArguments (r.drop (2 * (segments r).length))).map (Prod.map TypeExpr.bareAll id))
    (hinner : ∀ span r, ts = ⟨.punctuation .openParen, span⟩ :: r →
      typeExpr (r.map PlacedToken.bare) = (typeExpr r).map (Prod.map TypeExpr.bare id)) :
    primary (ts.map PlacedToken.bare) = (primary ts).map (Prod.map TypeExpr.bare id) := by
  fun_cases primary ts with
  | case1 name span r more q ha =>
    rw [List.map_cons, PlacedToken.bare, primary]
    simp only [segments_bare, List.length_map, ← List.map_drop]
    rw [harguments name span r rfl, ha]
    simp only [Option.map_none, Option.map_some, Prod.map_apply, id_eq, TypeExpr.bare, q, more,
      QualifiedName.bare_ofSegments]
    rfl
  | case2 name span r more q args k ha =>
    rw [List.map_cons, PlacedToken.bare, primary]
    simp only [segments_bare, List.length_map, ← List.map_drop]
    rw [harguments name span r rfl, ha]
    simp only [Option.map_some, Prod.map_apply, id_eq, TypeExpr.bare, q, more,
      QualifiedName.bare_ofSegments]
    rfl
  | case3 value span r =>
    rw [List.map_cons, PlacedToken.bare, primary]
    rfl
  | case4 span r ht =>
    rw [List.map_cons, PlacedToken.bare, primary, hinner span r rfl, ht]
    rfl
  | case5 span r inner k ht span' after hclose =>
    rw [List.map_cons, PlacedToken.bare, primary, hinner span r rfl, ht]
    simp only [Option.map_some, Prod.map_apply, id_eq, ← List.map_drop, hclose]
    rfl
  | case6 span r inner k ht hopen =>
    rw [List.map_cons, PlacedToken.bare, primary, hinner span r rfl, ht]
    simp only [Option.map_some, Prod.map_apply, id_eq, ← List.map_drop]
    split
    · next h => exact (bare_ne_cons hopen _ _ h).elim
    · rfl
  | case7 _ hname hstring hparen =>
    rw [primary]
    · rfl
    · intro name
      exact bare_ne_cons (hname name)
    · intro value
      exact bare_ne_cons (hstring value)
    · exact bare_ne_cons hparen

theorem typeArguments_bare
    (hlist : ∀ span r, ts = ⟨.punctuation .less, span⟩ :: r →
      typeList (r.map PlacedToken.bare) = Prod.map TypeExpr.bareAll id (typeList r)) :
    typeArguments (ts.map PlacedToken.bare) =
      (typeArguments ts).map (Prod.map TypeExpr.bareAll id) := by
  fun_cases typeArguments ts with
  | case1 span r args k hl span' after hclose =>
    rw [List.map_cons, PlacedToken.bare, typeArguments, hlist span r rfl, hl]
    simp only [Prod.map_apply, id_eq, ← List.map_drop, hclose]
    rfl
  | case2 span r args k hl hopen =>
    rw [List.map_cons, PlacedToken.bare, typeArguments, hlist span r rfl, hl]
    simp only [Prod.map_apply, id_eq, ← List.map_drop]
    split
    · next h => exact (bare_ne_cons hopen _ _ h).elim
    · rfl
  | case3 _ hne =>
    rw [typeArguments]
    · rfl
    · exact bare_ne_cons hne

theorem types_bare (reader : TypeReader) (ts : List PlacedToken) : reader.Forgets ts := by
  induction reader, ts using TypeReader.induction with
  | typeExpr ts ih =>
    simp only [TypeReader.Forgets] at ih ⊢
    rw [typeExpr, typeExpr, pipe_bare, ← List.map_drop, ih, Option.map_map, Option.map_map]
    rfl
  | union ts ihm iha =>
    simp only [TypeReader.Forgets] at ihm iha ⊢
    rw [union_eq, union_eq, ihm, Option.map_map, Option.map_map]
    apply Option.map_congr
    rintro ⟨first, n⟩ hm
    simp only [Function.comp_apply, Prod.map_apply, id_eq, ← List.map_drop, iha first n hm,
      Prod.map_fst, Prod.map_snd, bare_unionOf]
  | alternatives ts ihm iha =>
    simp only [TypeReader.Forgets] at ihm iha ⊢
    fun_cases Parser.alternatives ts with
    | case1 span r hm =>
      rw [List.map_cons, PlacedToken.bare, alternatives, ihm span r rfl, hm]
      rfl
    | case2 span r first n hm more k ha =>
      rw [List.map_cons, PlacedToken.bare, alternatives, ihm span r rfl, hm]
      simp only [Option.map_some, Prod.map_apply, id_eq, ← List.map_drop,
        iha span r first n rfl hm, ha]
      rfl
    | case3 _ hne =>
      rw [alternatives]
      · rfl
      · exact bare_ne_cons hne
  | member ts ih =>
    simp only [TypeReader.Forgets] at ih ⊢
    rw [member_eq, member_eq, ih, Option.map_map, Option.map_map]
    apply Option.map_congr
    rintro ⟨element, n⟩ -
    simp only [Function.comp_apply, Prod.map_apply, id_eq, ← List.map_drop, bracketPairs_bare,
      bare_arrayOf]
  | primary ts iha iht => exact primary_bare iha iht
  | typeArguments ts ih => exact typeArguments_bare ih
  | typeList ts iht ihl =>
    simp only [TypeReader.Forgets] at iht ihl ⊢
    obtain ⟨ht, hl⟩ | ⟨first, n, ht, hd, hl⟩ | ⟨first, n, span, r, ht, hd, hl⟩ := typeList_cases ts
    · rw [hl, typeList_none (by rw [iht, ht]; rfl)]
      rfl
    · have ht' : typeExpr (ts.map PlacedToken.bare) = some (first.bare, n) := by
        rw [iht, ht]
        rfl
      rw [hl, typeList_last ht']
      · rfl
      · rw [← List.map_drop]
        exact bare_ne_cons hd
    · have ht' : typeExpr (ts.map PlacedToken.bare) = some (first.bare, n) := by
        rw [iht, ht]
        rfl
      have hd' : (ts.map PlacedToken.bare).drop n =
          ⟨.punctuation .comma, default⟩ :: r.map PlacedToken.bare := by
        rw [← List.map_drop, hd]
        rfl
      rw [hl, typeList_comma ht' hd', ihl first n span r ht hd]
      rfl

theorem typeExpr_bare (ts : List PlacedToken) : typeExpr (ts.map PlacedToken.bare) =
    (typeExpr ts).map (Prod.map TypeExpr.bare id) :=
  types_bare .typeExpr ts

theorem ascription_bare (ts : List PlacedToken) : ascription (ts.map PlacedToken.bare) =
    Prod.map (Option.map TypeExpr.bare) id (ascription ts) := by
  fun_cases ascription ts with
  | case1 s r t n h =>
    rw [List.map_cons, PlacedToken.bare, ascription, typeExpr_bare, h]
    rfl
  | case2 s r h =>
    rw [List.map_cons, PlacedToken.bare, ascription, typeExpr_bare, h]
    rfl
  | case3 _ h =>
    rw [ascription]
    · rfl
    · exact bare_ne_cons h

theorem initializer_bare (ts : List PlacedToken) : initializer (ts.map PlacedToken.bare) =
    Prod.map Initializer.bare id (initializer ts) := by
  have hrun : ((ts.map PlacedToken.bare).takeWhile (!endsInitializer ·.token)).length =
      (ts.takeWhile (!endsInitializer ·.token)).length := by
    rw [List.takeWhile_map, List.length_map]
    rfl
  fun_cases initializer ts with
  | case1 value s => rfl
  | case2 value s next r h run =>
    have hnext : extendsLiteral next.bare.token := h
    show _ = (Initializer.other, List.length _)
    rw [← hrun, List.map_cons, List.map_cons, PlacedToken.bare, initializer, if_pos hnext]
  | case3 value s next r h =>
    have hnext : ¬extendsLiteral next.bare.token := h
    rw [List.map_cons, List.map_cons, PlacedToken.bare, initializer, if_neg hnext]
    rfl
  | case4 _ run hlast hnext =>
    show _ = (Initializer.other, List.length _)
    rw [← hrun, initializer]
    · intro value s hts
      obtain ⟨_, r, rfl⟩ := exists_of_map_bare_eq_cons hts
      rw [List.map_cons, List.cons.injEq, List.map_eq_nil_iff] at hts
      exact hlast value _ (by rw [hts.2])
    · intro value s next r hts
      obtain ⟨_, r', rfl⟩ := exists_of_map_bare_eq_cons hts
      rw [List.map_cons, List.cons.injEq] at hts
      obtain ⟨_, _, h⟩ := exists_of_map_bare_eq_cons hts.2
      exact hnext value _ _ _ (by rw [h])

theorem assignment_bare (ts : List PlacedToken) : assignment (ts.map PlacedToken.bare) =
    Prod.map (Option.map Initializer.bare) id (assignment ts) := by
  fun_cases assignment ts with
  | case1 s r e n h =>
    rw [List.map_cons, PlacedToken.bare, assignment, initializer_bare, h]
    rfl
  | case2 _ h =>
    rw [assignment]
    · rfl
    · exact bare_ne_cons h

theorem declarator_bare (ts : List PlacedToken) : declarator (ts.map PlacedToken.bare) =
    (declarator ts).map (Prod.map Declarator.bare id) := by
  fun_cases declarator ts with
  | case1 name span r t n ht e k he =>
    rw [List.map_cons, PlacedToken.bare, declarator, ascription_bare, ht]
    simp only [Prod.map_apply, id_eq, ← List.map_drop, assignment_bare, he]
    rfl
  | case2 _ h =>
    rw [declarator]
    · rfl
    · intro name
      exact bare_ne_cons (h name)

theorem declarators_bare (ts : List PlacedToken) : declarators (ts.map PlacedToken.bare) =
    Prod.map (List.map Declarator.bare) id (declarators ts) := by
  fun_induction declarators ts with
  | case1 s r h =>
    rw [List.map_cons, PlacedToken.bare, declarators, declarator_bare, h]
    rfl
  | case2 s r d n h more k hk ih =>
    rw [List.map_cons, PlacedToken.bare, declarators, declarator_bare, h]
    simp only [Option.map_some, Prod.map_apply, id_eq, ← List.map_drop, ih, hk]
    rfl
  | case3 _ h =>
    rw [declarators]
    · rfl
    · exact bare_ne_cons h

theorem semicolon_bare (ts : List PlacedToken) :
    semicolon (ts.map PlacedToken.bare) = semicolon ts := by
  fun_cases semicolon ts with
  | case1 s r => rfl
  | case2 _ h =>
    rw [semicolon]
    exact bare_ne_cons h

theorem statement_bare (word : Keyword) (span : Text.Span) (ts : List PlacedToken) :
    statement word default (ts.map PlacedToken.bare) =
      (statement word span ts).map (Prod.map Statement.bare id) := by
  unfold statement
  rw [declarator_bare]
  cases declarator ts with
  | none => rfl
  | some dn =>
    obtain ⟨d, n⟩ := dn
    have hstop (k : Nat) : ((((ts.map PlacedToken.bare).take k).getLast?.map (·.span.stop)).getD
        (default : Text.Span).stop) = (default : Text.Span).stop := by
      rw [← List.map_take, List.getLast?_map, Option.map_map]
      cases (ts.take k).getLast? <;> rfl
    simp only [Option.map_some, Prod.map_apply, id_eq, ← List.map_drop, declarators_bare, semicolon_bare,
      hstop]
    rfl

theorem statementAt_bare (ts : List PlacedToken) : statementAt (ts.map PlacedToken.bare) =
    (statementAt ts).map (Prod.map Statement.bare id) := by
  fun_cases statementAt ts with
  | case1 word span r =>
    rw [List.map_cons, PlacedToken.bare, statementAt, statement_bare word span, Option.map_map,
      Option.map_map]
    rfl
  | case2 _ h =>
    rw [statementAt]
    · rfl
    · intro word
      exact bare_ne_cons (h word)

theorem scan_bare (ts : List PlacedToken) :
    scan (ts.map PlacedToken.bare) = (scan ts).map Statement.bare := by
  induction ts with
  | nil => rfl
  | cons t r ih =>
    rw [List.map_cons, scan, scan, ih, ← List.map_cons, statementAt_bare]
    cases statementAt (t :: r) <;> rfl

end Parser

def PathDeclaration.content (d : PathDeclaration) : PathKind × String × String :=
  (d.kind, d.name, d.value)

@[simp] theorem TypeExpr.declaredName_bare (t : TypeExpr) : t.bare.declaredName = t.declaredName := by
  induction t using TypeExpr.induction with
  | parenthesized inner ih => rw [bare, declaredName, ih, declaredName]
  | _ => rfl

theorem Declarator.content_bare (d : Declarator) :
    d.bare.pathDeclaration?.map PathDeclaration.content =
      d.pathDeclaration?.map PathDeclaration.content := by
  obtain ⟨name, ascription, initializer⟩ := d
  match ascription, initializer with
  | _, none => rfl
  | _, some .other => rfl
  | none, some (.literal value span) => rfl
  | some t, some (.literal value span) =>
    simp only [bare, pathDeclaration?, Option.map_some, Initializer.bare, Identifier.bare,
      Option.bind_eq_bind, Option.bind_some, TypeExpr.declaredName_bare]
    cases t.declaredName with
    | none => rfl
    | some typeName =>
      cases hkind : PathKind.ofMarker? typeName <;> simp [hkind, PathDeclaration.content]

/-- What the declarations of a text say is read off its tokens without their places. -/
theorem content_pathDeclarations (source : String) :
    (Parsed.ofText source).outline.pathDeclarations.map PathDeclaration.content =
      ((Parser.scan ((Scan.ofText source).tokens.map PlacedToken.bare)).flatMap
        Statement.declarators).filterMap fun d =>
          d.pathDeclaration?.map PathDeclaration.content := by
  have hdeclarators : (Parsed.ofText source).outline.declarators =
      (Parser.scan (Scan.ofText source).tokens).flatMap Statement.declarators := by
    rw [Parser.scan_eq_statements]
    rfl
  rw [Module.pathDeclarations, List.map_filterMap, hdeclarators, Parser.scan_bare, List.flatMap_map]
  have hbare (s : Statement) : s.bare.declarators = s.declarators.map Declarator.bare := rfl
  simp only [hbare, ← List.map_flatMap, List.filterMap_map, Function.comp_def,
    Declarator.content_bare]

/-- Texts with the same tokens declare the same, wherever the tokens stand. -/
theorem content_of_tokens {source source' : String}
    (h : (Scan.ofText source').tokens.map PlacedToken.token =
      (Scan.ofText source).tokens.map PlacedToken.token) :
    (Parsed.ofText source').outline.pathDeclarations.map PathDeclaration.content =
      (Parsed.ofText source).outline.pathDeclarations.map PathDeclaration.content := by
  have hbare (ts : List PlacedToken) : ts.map PlacedToken.bare =
      (ts.map PlacedToken.token).map (⟨·, default⟩) := by
    rw [List.map_map]
    rfl
  rw [content_pathDeclarations, content_pathDeclarations, hbare, hbare, h]

end PathAudit
