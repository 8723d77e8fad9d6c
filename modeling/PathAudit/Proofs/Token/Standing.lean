import PathAudit.Proofs.Text.Place
import PathAudit.Proofs.Token.Layout

/-! Tokens and errors where they stand. Each is read from a piece of the source text, and the piece of
a token is read as the same token when it is all that there is. -/

namespace PathAudit

open Computability Lexeme Pattern

variable {w r s : List Char} {p : Pattern} {l : Lexeme} {ls : List Lexeme} {source value : String}
  {t : PlacedToken} {e : Unrecognized}

/-- What is the longest match with more text behind it is so without. -/
theorem Pattern.Munch.alone (h : Munch (w ++ r) p w) : Munch w p w where
  isPrefix := List.prefix_refl w
  mem := h.mem
  longest _ _ hv _ := hv.length_le
  strongest := h.strongest

theorem Cut.exists_munch (h : Cut s ls) (hl : l ∈ ls) (hk : l.kind ≠ .unknown) :
    ∃ p r, Munch (l.text ++ r) p l.text ∧ p.kind l.text = l.kind := by
  induction h with
  | nil => cases hl
  | @piece p w r ls hp _ ih =>
    rcases List.mem_cons.1 hl with rfl | hl
    · exact ⟨p, r, hp, rfl⟩
    · exact ih hl
  | stray _ _ ih =>
    rcases List.mem_cons.1 hl with rfl | hl
    · exact absurd rfl hk
    · exact ih hl

theorem ofText_alone (hl : l ∈ Lexeme.ofText s) (hk : l.kind ≠ .unknown) :
    Lexeme.ofText (l.text ++ []) = l :: Lexeme.ofText [] := by
  obtain ⟨p, r, hp, hkind⟩ := (cut_ofText s).exists_munch hl hk
  have halone : Munch (l.text ++ []) p l.text := by
    rw [List.append_nil]
    exact hp.alone
  rw [ofText_of_munch halone, hkind]

/-- A string token is read from a quoted literal, and has its value. -/
theorem exists_literal_of_string (hl : l ∈ Lexeme.ofText s) (hk : l.kind = .token (.string value)) :
    ∃ (quote : Quote) (v : List Char), v ∈ body quote.mark false ∧
      l.text = quote.mark :: (v ++ [quote.mark]) ∧ value.toList = Token.literalValue v := by
  obtain ⟨p, r, hp, hkind⟩ := (cut_ofText s).exists_munch hl (by simp [hk])
  have hquote (quote : Quote) (hquoted : p = quote.pattern)
      (hlang : quote.pattern.language = quotedBy quote.mark false) :
      ∃ v ∈ body quote.mark false, l.text = quote.mark :: (v ++ [quote.mark]) ∧
        value.toList = Token.literalValue v := by
    obtain ⟨v, hv, htext⟩ := mem_quotedBy.1 (hlang ▸ hquoted ▸ hp.mem)
    rw [hk, hquoted, htext, kind_literal] at hkind
    cases hkind
    exact ⟨v, hv, htext, String.toList_ofList⟩
  cases p with
  | doubleQuoted => exact ⟨.double, hquote .double rfl rfl⟩
  | singleQuoted => exact ⟨.single, hquote .single rfl rfl⟩
  | _ => simp [hk, Pattern.kind] at hkind

theorem exists_quotedBy_of_string (hl : l ∈ Lexeme.ofText s) (hk : l.kind = .token (.string value)) :
    ∃ q, (q = '"' ∨ q = '\'') ∧ l.text ∈ quotedBy q false := by
  obtain ⟨quote, v, hv, htext, -⟩ := exists_literal_of_string hl hk
  refine ⟨quote.mark, ?_, mem_quotedBy.2 ⟨v, hv, htext⟩⟩
  cases quote
  · exact .inl rfl
  · exact .inr rfl

/-- A token that is no literal is written as messages name it. -/
theorem text_eq_of_token {t : Token} (hl : l ∈ Lexeme.ofText s) (hk : l.kind = .token t)
    (hstring : ∀ value, t ≠ .string value) (htemplate : t ≠ .template) (hnumber : t ≠ .number) :
    l.text = t.text.toList := by
  obtain ⟨p, r, hp, hkind⟩ := (cut_ofText s).exists_munch hl (by simp [hk])
  have hmem := hp.mem
  rw [hk] at hkind
  cases p with
  | skipped | lineComment | blockComment => cases hkind
  | doubleQuoted | singleQuoted =>
    cases hkind
    exact absurd rfl (hstring _)
  | template =>
    cases hkind
    exact absurd rfl htemplate
  | number =>
    cases hkind
    exact absurd rfl hnumber
  | keyword word =>
    cases hkind
    exact hmem
  | punctuation mark =>
    cases hkind
    exact hmem
  | identifier =>
    cases hkind
    exact String.toList_ofList.symm
  | other =>
    obtain ⟨c, -, hc⟩ := hmem
    rw [hc] at hkind ⊢
    cases hkind
    simp [Token.text]

theorem marks_of_mem_placed {span : Text.Span} (h : (l, span) ∈ placed (Lexeme.ofText source.toList)) :
    l ∈ Lexeme.ofText source.toList ∧ l.text ≠ [] ∧ (Extent.ofSpan span).Marks source l.text := by
  obtain ⟨as, bs, hls, rfl⟩ := mem_placed.1 h
  have hl : l ∈ Lexeme.ofText source.toList := by simp [hls]
  obtain ⟨r, hshape⟩ := (shaped_of_cut (cut_ofText _)).of_mem hl
  refine ⟨hl, hshape.ne_nil, as.flatMap text, bs.flatMap text, ?_, ?_⟩
  · rw [← flatMap_text_ofText source.toList, hls]
    simp
  · rw [Extent.ofSpan, Nat.add_sub_cancel_left]

namespace Scan

theorem mem_tokens : t ∈ (ofText source).tokens ↔
    ∃ w, (⟨.token t.token, w⟩, t.span) ∈ placed (Lexeme.ofText source.toList) := by
  rw [tokens_ofText, List.mem_filterMap]
  constructor
  · rintro ⟨⟨⟨k, w⟩, span⟩, hp, he⟩
    cases k with
    | token u =>
      cases he
      exact ⟨w, hp⟩
    | _ => cases he
  · rintro ⟨w, hp⟩
    exact ⟨_, hp, rfl⟩

theorem marks_of_mem_errors (he : e ∈ (ofText source).errors) :
    ∃ piece, piece ≠ [] ∧ (Extent.ofSpan e.span).Marks source piece := by
  obtain ⟨w, span, hp, rfl⟩ := mem_errors.1 he
  exact ⟨w, (marks_of_mem_placed hp).2⟩

/-- A token is read from a piece of the source text, and from that piece alone it is read too. -/
theorem piece_of_mem_tokens (ht : t ∈ (ofText source).tokens) :
    ∃ piece, ⟨.token t.token, piece⟩ ∈ Lexeme.ofText source.toList ∧ piece ≠ [] ∧
      (Extent.ofSpan t.span).Marks source piece ∧
      ofText (String.ofList piece) = ⟨[⟨t.token, ⟨0, Text.byteLength piece⟩⟩], []⟩ := by
  obtain ⟨w, hp⟩ := mem_tokens.1 ht
  obtain ⟨hl, hne, hmarks⟩ := marks_of_mem_placed hp
  exact ⟨w, hl, hne, hmarks, ofText_of_token (ofText_alone hl (by simp))⟩

theorem start_lt_stop (ht : t ∈ (ofText source).tokens) : t.span.start < t.span.stop := by
  obtain ⟨w, hp⟩ := mem_tokens.1 ht
  obtain ⟨-, hne, before, -, -, hspan⟩ := marks_of_mem_placed hp
  have hpos : 0 < Text.byteLength w := byteLength_pos hne
  have hlen : t.span.stop - t.span.start = Text.byteLength w := congrArg Extent.length hspan
  omega

theorem pairwise_starts (source : String) :
    (ofText source).tokens.Pairwise fun a b => a.span.start < b.span.start := by
  refine (pairwise_tokens source).imp_of_mem ?_
  intro a b ha _ hab
  exact Nat.lt_of_lt_of_le (start_lt_stop ha) hab

end Scan

end PathAudit
