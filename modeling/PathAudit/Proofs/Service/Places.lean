import PathAudit.Proofs.Checker.Findings
import PathAudit.Proofs.Syntax.Literals
import PathAudit.Proofs.Token.Standing

/-! Where the findings of a service stand. Each covers a piece of the text that it is about, and a
path finding covers the whole literal that it quotes. -/

namespace PathAudit

open Pattern

variable {c : Checker} {disk : Disk} {name text value : String} {p : SourceSet} {s : Source}
  {d : Diagnostic} {pd : PathDeclaration} {piece : List Char} {e : Extent} {span : Text.Span}

theorem Extent.Marks.length_pos (h : e.Marks text piece) (hne : piece ≠ []) : 0 < e.length := by
  obtain ⟨before, after, -, rfl⟩ := h
  exact Lexeme.byteLength_pos hne

theorem Extent.stop_ofSpan (h : 0 < (ofSpan span).length) : (ofSpan span).stop = span.stop := by
  simp only [ofSpan, stop] at h ⊢
  omega

/-- Holds when a piece is a quoted literal of that value: it opens with a quote and goes on to the
next one of its kind, and all of it is read as one string token. -/
structure Quotes (piece : List Char) (value : String) : Prop where
  delimited : ∃ q, (q = '"' ∨ q = '\'') ∧ piece ∈ quotedBy q false
  alone : Scan.ofText (String.ofList piece) = ⟨[⟨.string value, ⟨0, Text.byteLength piece⟩⟩], []⟩

namespace PathDeclaration

/-- The span of a path declaration covers its literal in the text. -/
theorem quotes_of_mem (h : pd ∈ (Parsed.ofText text).outline.pathDeclarations) :
    ∃ piece, piece ≠ [] ∧ (Extent.ofSpan pd.span).Marks text piece ∧ Quotes piece pd.value := by
  have htoken : pd.literal ∈ (Scan.ofText text).tokens :=
    (literals_pathDeclarations text).subset (List.mem_map_of_mem h)
  obtain ⟨piece, hpiece, hne, hmarks, halone⟩ := Scan.piece_of_mem_tokens htoken
  exact ⟨piece, hne, hmarks, exists_quotedBy_of_string hpiece rfl, halone⟩

theorem pairwise_pathDeclarations (text : String) :
    (Parsed.ofText text).outline.pathDeclarations.Pairwise fun a b =>
      a.span.start < b.span.start ∧ a.span.stop ≤ b.span.start := by
  have hplaces := (Scan.pairwise_starts text).and (Scan.pairwise_tokens text)
  exact List.pairwise_map.1 (hplaces.sublist (literals_pathDeclarations text))

end PathDeclaration

namespace Checker

theorem mem_rejectedIn : d ∈ c.rejectedIn disk name text ↔
    ∃ pd ∈ (Parsed.ofText text).outline.pathDeclarations, c.rejects disk pd ∧ c.finding name pd = d := by
  simp [rejectedIn, and_assoc]

/-- The path findings about a text stand one after the other. -/
theorem pairwise_rejectedIn (c : Checker) (disk : Disk) (name text : String) :
    (c.rejectedIn disk name text).Pairwise fun a b =>
      ∀ e ∈ a.extent, ∀ f ∈ b.extent, e.start < f.start ∧ e.stop ≤ f.start := by
  rw [rejectedIn, List.pairwise_map]
  refine ((PathDeclaration.pairwise_pathDeclarations text).filter _).imp_of_mem ?_
  rintro a b ha - hafter e ⟨⟩ f ⟨⟩
  obtain ⟨piece, hne, hmarks, -⟩ := PathDeclaration.quotes_of_mem (List.mem_filter.1 ha).1
  rw [Extent.stop_ofSpan (hmarks.length_pos hne)]
  exact hafter

end Checker

namespace Service

theorem mem_syntactic_ofSources : d ∈ (ofSources p).syntactic name ↔
    ∃ s e, p.get? name = some s ∧ e ∈ s.errors ∧ syntaxFinding name e = d := by
  cases h : p.get? name <;> simp [ofSources, h]

theorem answer_semantic_ofSources (p : SourceSet) (c : Checker) (name : String) :
    (((ofSources p).withPathChecks c).semantic name).answer disk =
      (p.get? name).elim [] fun s => c.rejectedIn disk name s.text := by
  have hsources : (ofSources p).sources.bind (·.get? name) = p.get? name := rfl
  have hown : ((ofSources p).semantic name).answer disk = [] := rfl
  rw [answer_semantic_withPathChecks, hsources, hown, List.nil_append]
  cases p.get? name <;> rfl

theorem mem_semantic_ofSources
    (hd : d ∈ (((ofSources p).withPathChecks c).semantic name).answer disk) :
    ∃ s pd, p.get? name = some s ∧ pd ∈ (Parsed.ofText s.text).outline.pathDeclarations ∧
      c.finding name pd = d := by
  rw [answer_semantic_ofSources] at hd
  cases h : p.get? name with
  | none =>
    rw [h] at hd
    cases hd
  | some s =>
    rw [h] at hd
    obtain ⟨pd, hpd, -, he⟩ := Checker.mem_rejectedIn.1 hd
    exact ⟨s, pd, rfl, hpd, he⟩

/-- Every finding about a source in memory covers a piece of its text, and there are a line and a
column for it. The path findings stand one after the other, and each covers the whole literal that
it quotes. -/
theorem findings_cover_pieces (p : SourceSet) (c : Checker) (disk : Disk) (name : String) :
    let service := (ofSources p).withPathChecks c
    let found := (service.semantic name).answer disk
    (∀ d ∈ service.syntactic name ++ found, ∃ s e piece, p.get? name = some s ∧ d.extent = some e ∧
      piece ≠ [] ∧ e.Marks s.text piece ∧ 0 < e.length ∧ (d.lineColumn? s.text).isSome) ∧
    (found.Pairwise fun a b =>
      ∀ e ∈ a.extent, ∀ f ∈ b.extent, e.start < f.start ∧ e.stop ≤ f.start) ∧
    ∀ d ∈ found, ∃ s e piece value, p.get? name = some s ∧ d.extent = some e ∧
      e.Marks s.text piece ∧ Quotes piece value ∧
      d.message = s!"Invalid path: \"{value}\" does not exist or is not accessible" := by
  intro service found
  refine ⟨?_, ?_, ?_⟩
  · intro d hd
    rcases List.mem_append.1 hd with hd | hd
    · obtain ⟨s, e, hs, he, rfl⟩ := mem_syntactic_ofSources.1 hd
      obtain ⟨piece, hne, hmarks⟩ := Scan.marks_of_mem_errors he
      exact ⟨s, _, piece, hs, rfl, hne, hmarks, hmarks.length_pos hne, hmarks.isSome_lineColumn?⟩
    · obtain ⟨s, pd, hs, hpd, rfl⟩ := mem_semantic_ofSources hd
      obtain ⟨piece, hne, hmarks, -⟩ := PathDeclaration.quotes_of_mem hpd
      exact ⟨s, _, piece, hs, rfl, hne, hmarks, hmarks.length_pos hne, hmarks.isSome_lineColumn?⟩
  · rw [show found = _ from answer_semantic_ofSources p c name]
    cases p.get? name with
    | none => exact List.Pairwise.nil
    | some s => exact Checker.pairwise_rejectedIn c disk name s.text
  · intro d hd
    obtain ⟨s, pd, hs, hpd, rfl⟩ := mem_semantic_ofSources hd
    obtain ⟨piece, -, hmarks, hquotes⟩ := PathDeclaration.quotes_of_mem hpd
    exact ⟨s, _, piece, pd.value, hs, rfl, hmarks, hquotes, rfl⟩

end Service

end PathAudit
