import PathAudit.Proofs.Syntax.ReadType

/-! A written outline is read back from its tokens. A declarator ends at a comma or a semicolon,
which goes on with neither a type nor a literal; a statement ends with its semicolon; and the
braces of blocks are written in pairs, so each closes where it was opened. -/

namespace PathAudit.Parser

open Token

variable {ts r : List PlacedToken} {s rest : List Token} {mark : Punctuation} {n : Nat}

theorem ascription_read (d : Declarator) (hd : d.annotation.all TypeExpr.isPrintable)
    (h : ts.map PlacedToken.token = d.ascriptionTokens ++ rest)
    (hrest : Avoids [.colon, .dot, .less, .openBracket, .pipe] rest) :
    ∃ a, a.map TypeExpr.bare = d.annotation.map TypeExpr.bare ∧
      ascription ts = (a, d.ascriptionTokens.length) := by
  unfold Declarator.ascriptionTokens at h ⊢
  cases ha : d.annotation with
  | none =>
    rw [ha] at h
    refine ⟨none, rfl, ?_⟩
    rw [ascription]
    · rfl
    · intro span r hts
      exact ne_of_head h (hrest _ (by simp)) _ _ hts
  | some t =>
    rw [ha] at h hd
    obtain ⟨span, r, rfl, hr⟩ := exists_of_map_eq_cons h
    obtain ⟨u, hu, hread⟩ := (reads_type t hd).1 r rest hr (hrest.mono (by decide))
    refine ⟨some u, congrArg some hu, ?_⟩
    rw [ascription, hread]
    rfl

/-- A written initializer takes one token when a comma or a semicolon follows it. -/
theorem initializer_read (e : Initializer) (hmark : mark = .comma ∨ mark = .semicolon)
    (h : ts.map PlacedToken.token = e.tokens ++ .punctuation mark :: s) :
    ∃ e', e'.bare = e.bare ∧ initializer ts = (e', 1) := by
  cases e with
  | literal value place =>
    obtain ⟨span, r, rfl, hr⟩ := exists_of_map_eq_cons h
    obtain ⟨span', r, rfl, -⟩ := exists_of_map_eq_cons hr
    refine ⟨.literal value span, rfl, ?_⟩
    rcases hmark with rfl | rfl <;> rfl
  | other =>
    obtain ⟨span, r, rfl, hr⟩ := exists_of_map_eq_cons h
    obtain ⟨span', r, rfl, -⟩ := exists_of_map_eq_cons hr
    refine ⟨.other, rfl, ?_⟩
    rcases hmark with rfl | rfl <;> rfl

theorem assignment_read (d : Declarator) (hmark : mark = .comma ∨ mark = .semicolon)
    (h : ts.map PlacedToken.token = d.initializerTokens ++ .punctuation mark :: s) :
    ∃ e, e.map Initializer.bare = d.initializer.map Initializer.bare ∧
      assignment ts = (e, d.initializerTokens.length) := by
  unfold Declarator.initializerTokens at h ⊢
  cases he : d.initializer with
  | none =>
    rw [he] at h
    refine ⟨none, rfl, ?_⟩
    rw [assignment]
    · rfl
    · rintro span r rfl
      rcases hmark with rfl | rfl <;> cases h
  | some e =>
    rw [he] at h
    obtain ⟨span, r, rfl, hr⟩ := exists_of_map_eq_cons h
    obtain ⟨e', he', hread⟩ := initializer_read e hmark hr
    refine ⟨some e', congrArg some he', ?_⟩
    rw [assignment, hread]
    cases e <;> rfl

theorem declarator_read (d : Declarator) (hd : d.isPrintable)
    (hmark : mark = .comma ∨ mark = .semicolon)
    (h : ts.map PlacedToken.token = d.tokens ++ .punctuation mark :: s) :
    ∃ d', d'.bare = d.bare ∧ declarator ts = some (d', d.tokens.length) := by
  rw [Declarator.isPrintable, Bool.and_eq_true] at hd
  rw [Declarator.tokens, List.cons_append, List.append_assoc] at h
  obtain ⟨span, r, rfl, hr⟩ := exists_of_map_eq_cons h
  have hnext : Avoids [.colon, .dot, .less, .openBracket, .pipe]
      (d.initializerTokens ++ .punctuation mark :: s) := by
    unfold Declarator.initializerTokens
    cases d.initializer with
    | none => rcases hmark with rfl | rfl <;> exact avoids_cons.2 (by decide)
    | some e => exact avoids_cons.2 (by decide)
  obtain ⟨a, ha, hann⟩ := ascription_read d hd.2 hr hnext
  obtain ⟨e, he, hassign⟩ := assignment_read d hmark (map_drop hr)
  refine ⟨⟨⟨d.name.name, span⟩, a, e⟩, ?_, ?_⟩
  · rw [Declarator.bare, Declarator.bare, ha, he]
    rfl
  · rw [declarator, hann]
    simp only [hassign, Declarator.tokens, List.length_cons, List.length_append, Option.some.injEq,
      Prod.mk.injEq, true_and]
    omega

theorem mark_after (ds : List Declarator) (s : List Token) :
    ∃ mark s', (mark = .comma ∨ mark = .semicolon) ∧
      (ds.map Declarator.tokens).flatMap (.punctuation .comma :: ·) ++ .punctuation .semicolon :: s =
        .punctuation mark :: s' := by
  cases ds with
  | nil => exact ⟨.semicolon, s, .inr rfl, rfl⟩
  | cons d ds => exact ⟨.comma, _, .inl rfl, rfl⟩

theorem declarators_read (ds : List Declarator) (hds : ∀ d ∈ ds, d.isPrintable)
    (h : ts.map PlacedToken.token = (ds.map Declarator.tokens).flatMap (.punctuation .comma :: ·) ++
      .punctuation .semicolon :: s) :
    ∃ es, es.map Declarator.bare = ds.map Declarator.bare ∧ declarators ts =
      (es, ((ds.map Declarator.tokens).flatMap (.punctuation .comma :: ·)).length) := by
  induction ds generalizing ts with
  | nil =>
    refine ⟨[], rfl, ?_⟩
    rw [declarators]
    · rfl
    · rintro span r rfl
      cases h
  | cons d ds ih =>
    rw [List.map_cons, List.flatMap_cons, List.append_assoc, List.cons_append] at h
    obtain ⟨span, r, rfl, hr⟩ := exists_of_map_eq_cons h
    obtain ⟨mark, s', hmark, hnext⟩ := mark_after ds s
    obtain ⟨d', hd', hread⟩ := declarator_read d (hds d (by simp)) hmark (hr.trans (by rw [hnext]))
    obtain ⟨es, hes, hmore⟩ := ih (fun e he => hds e (List.mem_cons_of_mem _ he)) (map_drop hr)
    refine ⟨d' :: es, by rw [List.map_cons, hd', hes, List.map_cons], ?_⟩
    rw [declarators, hread]
    simp only [hmore, List.map_cons, List.flatMap_cons, List.length_append, List.length_cons,
      Prod.mk.injEq, true_and]
    omega

theorem statement_read (st : Statement) (hst : st.isPrintable) (span : Text.Span)
    (h : ts.map PlacedToken.token = joined .comma (st.declarators.map Declarator.tokens) ++
      .punctuation .semicolon :: s) :
    ∃ st' n, st'.bare = st.bare ∧ statement st.keyword span ts = some (st', n) ∧
      n + 1 = st.tokens.length := by
  rw [Statement.isPrintable, Bool.and_eq_true, List.all_eq_true] at hst
  obtain ⟨hne, hds⟩ := hst
  rw [Statement.bare, Statement.tokens]
  generalize st.declarators = ds at h hne hds ⊢
  cases ds with
  | nil => cases hne
  | cons d ds =>
    rw [List.map_cons, joined_cons, List.append_assoc] at h
    obtain ⟨mark, s', hmark, hnext⟩ := mark_after ds s
    obtain ⟨d', hd', hread⟩ := declarator_read d (hds d (by simp)) hmark (h.trans (by rw [hnext]))
    obtain ⟨es, hes, hmore⟩ :=
      declarators_read ds (fun e he => hds e (List.mem_cons_of_mem _ he)) (map_drop h)
    obtain ⟨span', r, hsemi, -⟩ := exists_of_map_eq_cons (map_drop (map_drop h))
    rw [List.drop_drop] at hsemi
    rw [statement, hread]
    simp only [hmore, hsemi, semicolon]
    refine ⟨_, _, ?_, rfl, ?_⟩
    · rw [Statement.bare, List.map_cons, hd', hes]
      rfl
    · rw [List.map_cons, joined_cons]
      simp only [List.length_cons, List.length_append, List.length_nil]

theorem items_statement {word : Keyword} {span : Text.Span} {st : Statement}
    (h : statement word span r = some (st, n)) : items (⟨.keyword word, span⟩ :: r) =
      (.variable st :: (items (r.drop n)).1, 1 + n + (items (r.drop n)).2) := by
  rw [items, h]

theorem items_block {span : Text.Span} {inner : List Item} {t : PlacedToken} {r' : List PlacedToken}
    (h : items r = (inner, n)) (hd : r.drop n = t :: r') :
    items (⟨.punctuation .openBrace, span⟩ :: r) =
      (.block inner :: (items r').1, 1 + n + 1 + (items r').2) := by
  rw [items]
  simp only [h]
  split
  · next hnil =>
    rw [h, hd] at hnil
    cases hnil
  · next hcons =>
    rw [h, hd] at hcons
    cases hcons
    rfl

/-- Written items are read back up to their end or up to the brace that closes the block around
them. -/
theorem items_read (is : List Item) (his : ∀ st ∈ Item.statements is, st.isPrintable)
    (h : ts.map PlacedToken.token = Item.tokens is ++ rest)
    (hrest : rest = [] ∨ ∃ s, rest = .punctuation .closeBrace :: s) :
    ∃ js, Item.bare js = Item.bare is ∧ items ts = (js, (Item.tokens is).length) := by
  fun_induction Item.statements is generalizing ts rest with
  | case1 =>
    rw [Item.tokens, List.nil_append] at h
    refine ⟨[], rfl, ?_⟩
    rcases hrest with rfl | ⟨s, rfl⟩
    · cases List.map_eq_nil_iff.1 h
      rw [items, Item.tokens]
      rfl
    · obtain ⟨span, r, rfl, -⟩ := exists_of_map_eq_cons h
      rw [items, Item.tokens]
      rfl
  | case2 st more ih =>
    rw [Item.tokens, Statement.tokens, List.append_assoc, List.cons_append, List.append_assoc] at h
    obtain ⟨span, r, rfl, hr⟩ := exists_of_map_eq_cons h
    obtain ⟨st', n, hst, hread, hn⟩ := statement_read st (his st (by simp)) span hr
    have hlen : n = (joined .comma (st.declarators.map Declarator.tokens) ++
        [Token.punctuation .semicolon]).length := by
      rw [Statement.tokens, List.length_cons] at hn
      exact Nat.succ.inj hn
    have hafter : (r.drop n).map PlacedToken.token = Item.tokens more ++ rest :=
      map_drop_of_eq (hr.trans (by simp)) hlen
    obtain ⟨js, hjs, hmore⟩ := ih (fun s hs => his s (List.mem_cons_of_mem _ hs)) hafter hrest
    refine ⟨.variable st' :: js, by rw [Item.bare, Item.bare, hst, hjs], ?_⟩
    rw [items_statement hread, hmore, Item.tokens, List.length_append, ← hn, Nat.add_comm 1 n]
  | case3 inner more ih ih' =>
    rw [Item.tokens, List.cons_append, List.append_assoc, List.cons_append] at h
    obtain ⟨span, r, rfl, hr⟩ := exists_of_map_eq_cons h
    obtain ⟨js, hjs, hinner⟩ := ih (fun s hs => his s (List.mem_append_left _ hs)) hr (.inr ⟨_, rfl⟩)
    obtain ⟨span', r', hclose, hafter⟩ := exists_of_map_eq_cons (map_drop hr)
    obtain ⟨ks, hks, hmore⟩ := ih' (fun s hs => his s (List.mem_append_right _ hs)) hafter hrest
    refine ⟨.block js :: ks, by rw [Item.bare, Item.bare, hjs, hks], ?_⟩
    rw [items_block hinner hclose, hmore, Item.tokens]
    simp only [List.length_cons, List.length_append, Prod.mk.injEq, true_and]
    omega

/-- A written outline is read back from its tokens, wherever they stand. -/
theorem topLevel_read (is : List Item) (his : ∀ st ∈ Item.statements is, st.isPrintable)
    (h : ts.map PlacedToken.token = Item.tokens is) : Item.bare (topLevel ts) = Item.bare is := by
  have h : ts.map PlacedToken.token = Item.tokens is ++ [] := by rw [h, List.append_nil]
  obtain ⟨js, hjs, hread⟩ := items_read is his h (.inl rfl)
  have hend : ts.drop (Item.tokens is).length = [] := List.map_eq_nil_iff.1 (map_drop h)
  rw [topLevel, hread]
  simp only
  split
  · exact hjs
  · next hcons =>
    rw [hend] at hcons
    cases hcons

end PathAudit.Parser
