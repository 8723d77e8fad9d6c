import PathAudit.Proofs.Syntax.Leaves
import PathAudit.Proofs.Token.Standing

/-! Where the statements of a source text stand. A statement spans the tokens that it took, from its
keyword to the last of them; its names and its literals stand within it in the order in which they are
written, and each name stands over its own text. No two statements share a token. -/

namespace PathAudit

abbrev lastTaken (first : PlacedToken) (taken : List PlacedToken) : PlacedToken :=
  (first :: taken).getLast (List.cons_ne_nil first taken)

/-- How a statement lies over the tokens that it took: first its keyword, which is the only one, and among
the others its leaves. -/
structure Statement.LiesOver (s : Statement) (first : PlacedToken) (taken : List PlacedToken) : Prop where
  keyword : first.token = .keyword s.keyword
  noOther : ∀ t ∈ taken, ∀ word, t.token ≠ .keyword word
  leaves : s.leaves.Sublist taken
  span : s.span = ⟨first.span.start, (lastTaken first taken).span.stop⟩

def InOrder (ts : List PlacedToken) : Prop := ts.Pairwise fun a b => a.span.stop ≤ b.span.start

variable {ts taken rest : List PlacedToken} {first leaf : PlacedToken} {s : Statement} {n : Nat}

namespace Parser

theorem liesOver_of_statementAt (h : statementAt ts = some (s, n)) : ∃ first taken rest,
    ts = first :: taken ++ rest ∧ n = taken.length + 1 ∧ s.LiesOver first taken := by
  obtain ⟨word, span, r, k, rfl, hs, rfl⟩ := exists_of_statementAt h
  obtain ⟨hword, hleaves, hspan⟩ := leaves_statement hs
  have hcovers := covers_statement hs
  refine ⟨⟨.keyword word, span⟩, r.take k, r.drop k, by simp, by simp [hcovers.le], ?_, ?_, hleaves, ?_⟩
  · rw [hword]
  · intro t ht word' hword'
    have := hcovers.all t ht
    rw [hword'] at this
    cases this
  · rw [hspan]
    cases r.take k with
    | nil => rfl
    | cons t taken =>
      rw [List.getLast?_eq_some_getLast (List.cons_ne_nil _ _), lastTaken,
        List.getLast_cons (List.cons_ne_nil _ _)]
      rfl

/-- The leaves of the statements that a single pass finds come in the order of the tokens. -/
theorem leaves_scan (ts : List PlacedToken) : ((scan ts).flatMap Statement.leaves).Sublist ts := by
  induction hlen : ts.length using Nat.strongRecOn generalizing ts with
  | ind len ih =>
    subst hlen
    cases ts with
    | nil => exact List.nil_sublist _
    | cons t r =>
      cases h : statementAt (t :: r) with
      | none =>
        rw [scan_cons_of_none h]
        exact (ih r.length (Nat.lt_succ_self _) r rfl).cons t
      | some sn =>
        obtain ⟨s, n⟩ := sn
        obtain ⟨first, taken, rest, htext, rfl, hover⟩ := liesOver_of_statementAt h
        have hdrop : (t :: r).drop (taken.length + 1) = rest := by
          rw [htext, ← List.length_cons, List.drop_left]
        have hlt : rest.length < (t :: r).length := by
          rw [htext, List.length_append, List.length_cons]
          omega
        rw [scan_statement h, List.flatMap_cons, hdrop, htext]
        exact (hover.leaves.cons first).append (ih rest.length hlt rest rfl)

theorem exists_of_mem_scan (h : s ∈ scan ts) :
    ∃ before rest n, ts = before ++ rest ∧ statementAt rest = some (s, n) := by
  induction ts with
  | nil => cases h
  | cons t r ih =>
    rw [scan, List.mem_append, Option.mem_toList, Option.map_eq_some_iff] at h
    rcases h with ⟨⟨_, n⟩, hs, rfl⟩ | h
    · exact ⟨[], t :: r, n, rfl, hs⟩
    · obtain ⟨before, rest, n, rfl, hs⟩ := ih h
      exact ⟨t :: before, rest, n, rfl, hs⟩

/-- The statements that a single pass finds stand one after the other, as the tokens do: none begins
before the last token of another, for that one took no other keyword. -/
theorem scan_inOrder (h : InOrder ts) :
    (scan ts).Pairwise fun a b => a.span.stop ≤ b.span.start := by
  induction ts with
  | nil => exact .nil
  | cons t r ih =>
    cases hs : statementAt (t :: r) with
    | none =>
      rw [scan_cons_of_none hs]
      exact ih h.of_cons
    | some sn =>
      obtain ⟨s, n⟩ := sn
      rw [scan, hs]
      refine List.pairwise_cons.2 ⟨?_, ih h.of_cons⟩
      intro b hb
      obtain ⟨first, taken, rest, htext, -, hover⟩ := liesOver_of_statementAt hs
      obtain ⟨before, after, m, hr, hs'⟩ := exists_of_mem_scan hb
      obtain ⟨first', taken', rest', rfl, -, hover'⟩ := liesOver_of_statementAt hs'
      -- `b` begins with a keyword, and `s` took none after its own
      have hmem : first' ∈ taken ++ rest := by
        rw [show taken ++ rest = r from (List.cons.inj htext).2.symm, hr]
        simp
      have hrest : first' ∈ rest := by
        rcases List.mem_append.1 hmem with hmem | hmem
        · exact absurd hover'.keyword (hover.noOther first' hmem _)
        · exact hmem
      rw [InOrder, htext] at h
      rw [hover.span, hover'.span]
      exact (List.pairwise_append.1 h).2.2 _ (List.getLast_mem _) first' hrest

end Parser

theorem leaves_outline (source : String) :
    ((Parsed.ofText source).outline.declarators.flatMap Declarator.leaves).Sublist
      (Scan.ofText source).tokens := by
  have hscan := Parser.leaves_scan (Scan.ofText source).tokens
  rw [Parser.scan_eq_statements] at hscan
  rwa [Module.declarators, List.flatMap_assoc]

namespace Statement.LiesOver

theorem leaves_within (h : s.LiesOver first taken) (horder : InOrder (first :: taken))
    (hpos : ∀ t ∈ taken, t.span.start < t.span.stop) (hleaf : leaf ∈ s.leaves) :
    first.span.stop ≤ leaf.span.start ∧ leaf.span.stop ≤ s.span.stop := by
  have hmem : leaf ∈ taken := h.leaves.subset hleaf
  refine ⟨(List.pairwise_cons.1 horder).1 leaf hmem, ?_⟩
  obtain ⟨others, last, rfl⟩ : ∃ others last, taken = others ++ [last] :=
    ⟨_, _, (List.dropLast_append_getLast (List.ne_nil_of_mem hmem)).symm⟩
  have hlast : s.span.stop = last.span.stop := by
    rw [h.span]
    simp [lastTaken]
  rw [hlast]
  rcases List.mem_append.1 hmem with hmem | hmem
  · have hbefore := (List.pairwise_append.1 horder.of_cons).2.2 leaf hmem last (by simp)
    have := hpos last (by simp)
    omega
  · rw [List.mem_singleton.1 hmem]

end Statement.LiesOver

theorem Identifier.token_mem_leaves {i : Identifier} (h : i ∈ s.identifiers) : i.token ∈ s.leaves := by
  obtain ⟨d, hd, hi⟩ := List.mem_flatMap.1 h
  exact List.mem_flatMap.2 ⟨d, hd, List.mem_append_left _ (List.mem_map_of_mem hi)⟩

/-- A name or a keyword stands over its own text. -/
theorem Scan.marks_text {source : String} {t : PlacedToken} (ht : t ∈ (ofText source).tokens)
    (hword : (∃ name, t.token = .identifier name) ∨ ∃ word, t.token = .keyword word) :
    (Extent.ofSpan t.span).Marks source t.token.text.toList := by
  obtain ⟨piece, hl, -, hmarks, -⟩ := piece_of_mem_tokens ht
  have htext : piece = t.token.text.toList := by
    rcases hword with ⟨_, h⟩ | ⟨_, h⟩ <;>
      exact text_eq_of_token hl rfl (by simp [h]) (by simp [h]) (by simp [h])
  rwa [← htext]

/-- How a statement stands in the source text that it was read from. -/
structure Statement.StandsIn (s : Statement) (source : String) : Prop where
  /-- Every name stands over its own text. -/
  names : ∀ i ∈ s.identifiers, (Extent.ofSpan i.span).Marks source i.name.toList
  /-- The statement goes from the start of its keyword to the end of the last token that was taken. -/
  taken : ∃ before first taken rest, (Scan.ofText source).tokens = before ++ (first :: taken ++ rest) ∧
    Parser.statementAt (first :: taken ++ rest) = some (s, taken.length + 1) ∧
    (Extent.ofSpan first.span).Marks source s.keyword.text.toList ∧
    s.span = ⟨first.span.start, (lastTaken first taken).span.stop⟩
  /-- The names and the literals stand within the statement. -/
  within : ∀ leaf ∈ s.leaves, s.span.start < leaf.span.start ∧ leaf.span.start < leaf.span.stop ∧
    leaf.span.stop ≤ s.span.stop
  /-- They stand one after the other. -/
  order : InOrder s.leaves

theorem Statement.LiesOver.standsIn {source : String} {before : List PlacedToken}
    (h : s.LiesOver first taken)
    (htokens : (Scan.ofText source).tokens = before ++ (first :: taken ++ rest))
    (hread : Parser.statementAt (first :: taken ++ rest) = some (s, taken.length + 1)) :
    s.StandsIn source := by
  have hsub : (first :: taken).Sublist (Scan.ofText source).tokens := by
    rw [htokens]
    exact (List.sublist_append_left _ rest).trans (List.sublist_append_right before _)
  have horder : InOrder (first :: taken) := (Scan.pairwise_tokens source).sublist hsub
  have hpos : ∀ t ∈ first :: taken, t.span.start < t.span.stop :=
    fun t ht => Scan.start_lt_stop (hsub.subset ht)
  have hleaves : ∀ leaf ∈ s.leaves, leaf ∈ first :: taken :=
    fun leaf hleaf => List.mem_cons_of_mem first (h.leaves.subset hleaf)
  refine ⟨?_, ⟨before, first, taken, rest, htokens, hread, ?_, h.span⟩, ?_, ?_⟩
  · intro i hi
    have hmem : i.token ∈ (Scan.ofText source).tokens :=
      hsub.subset (hleaves _ (Identifier.token_mem_leaves hi))
    have hmarks := Scan.marks_text hmem (.inl ⟨i.name, rfl⟩)
    exact hmarks
  · have hmarks := Scan.marks_text (hsub.subset List.mem_cons_self) (.inr ⟨_, h.keyword⟩)
    rwa [h.keyword] at hmarks
  · intro leaf hleaf
    obtain ⟨hstart, hstop⟩ :=
      h.leaves_within horder (fun t ht => hpos t (List.mem_cons_of_mem first ht)) hleaf
    have hkeyword := hpos first List.mem_cons_self
    rw [h.span] at hstop ⊢
    exact ⟨Nat.lt_of_lt_of_le hkeyword hstart, hpos leaf (hleaves leaf hleaf), hstop⟩
  · exact horder.of_cons.sublist h.leaves

/-- Every statement of the outline, at whatever depth, stands in the source text from its keyword to the
last token that was taken for it, its names over their own text and with the literals in order; and the
statements stand one after the other, in the order in which the outline has them. -/
theorem Module.spans_in_order (source : String) :
    let statements := Item.statements (Parsed.ofText source).outline.items
    (∀ s ∈ statements, s.StandsIn source) ∧
      statements.Pairwise fun a b => a.span.stop ≤ b.span.start := by
  intro statements
  have hscan : Parser.scan (Scan.ofText source).tokens = statements := Parser.scan_eq_statements _
  refine ⟨?_, hscan ▸ Parser.scan_inOrder (Scan.pairwise_tokens source)⟩
  intro s hs
  rw [← hscan] at hs
  obtain ⟨before, after, n, htokens, hread⟩ := Parser.exists_of_mem_scan hs
  obtain ⟨first, taken, rest, rfl, rfl, hover⟩ := Parser.liesOver_of_statementAt hread
  exact hover.standsIn htokens hread

end PathAudit
