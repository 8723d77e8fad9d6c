import PathAudit.Proofs.Text.Split
import PathAudit.Text.Blank

/-! Trimmed texts, and the lines of a text that is joined from lines. -/

namespace PathAudit.Text

variable {s t : List Char} {c : Char} {lines before tail : List (List Char)}

theorem dropWhile_isBlank_eq_self_iff : s.dropWhile isBlank = s ↔ ∀ c ∈ s.head?, ¬isBlank c := by
  cases s with
  | nil => simp
  | cons c s =>
    by_cases h : isBlank c
    · have hshort := (List.dropWhile_sublist isBlank (l := s)).length_le
      rw [List.dropWhile_cons_of_pos h]
      refine iff_of_false (fun heq => ?_) (by simp [h])
      rw [heq, List.length_cons] at hshort
      omega
    · simp [h]

theorem trimEnd_sublist (s : List Char) : (trimEnd s).Sublist s := by
  simpa [trimEnd] using (List.dropWhile_sublist isBlank (l := s.reverse)).reverse

theorem trimEnd_eq_self_iff : trimEnd s = s ↔ ∀ c ∈ s.getLast?, ¬isBlank c := by
  rw [trimEnd, List.reverse_eq_iff, dropWhile_isBlank_eq_self_iff, List.head?_reverse]

/-- Nothing is trimmed from a text exactly if it neither begins nor ends with a blank. -/
theorem trim_eq_self_iff :
    trim s = s ↔ (∀ c ∈ s.head?, ¬isBlank c) ∧ ∀ c ∈ s.getLast?, ¬isBlank c := by
  rw [← dropWhile_isBlank_eq_self_iff, ← trimEnd_eq_self_iff, trim]
  constructor
  · intro h
    have hsub := trimEnd_sublist (s.dropWhile isBlank)
    rw [h] at hsub
    have hstart := (List.dropWhile_sublist isBlank).eq_of_length_le hsub.length_le
    exact ⟨hstart, by rwa [hstart] at h⟩
  · rintro ⟨hstart, hend⟩
    rw [hstart, hend]

theorem trim_cons_blank (h : isBlank c) (s : List Char) : trim (c :: s) = trim s := by
  rw [trim, List.dropWhile_cons_of_pos h, trim]

theorem trim_append_blank (h : isBlank c) (s : List Char) : trim (s ++ [c]) = trim s := by
  have hend (s : List Char) : trimEnd (s ++ [c]) = trimEnd s := by simp [trimEnd, h]
  rw [trim, List.dropWhile_append]
  split
  · next hempty =>
    rw [trim, List.isEmpty_iff.1 hempty, List.dropWhile_cons_of_pos h, List.dropWhile_nil]
  · exact hend _

theorem trim_between (hs : trim s = s) (ht : trim t = t) (hsne : s ≠ []) (htne : t ≠ [])
    (middle : List Char) : trim (s ++ (middle ++ t)) = s ++ (middle ++ t) := by
  rw [trim_eq_self_iff] at hs ht ⊢
  obtain ⟨c, hc⟩ := Option.ne_none_iff_exists'.1 (mt List.head?_eq_none_iff.1 hsne)
  obtain ⟨d, hd⟩ := Option.ne_none_iff_exists'.1 (mt List.getLast?_eq_none_iff.1 htne)
  simpa [List.head?_append, List.getLast?_append, hc, hd] using
    And.intro (hs.1 c hc) (ht.2 d hd)

theorem getLast?_ne_return_of_trim (h : trim s = s) : s.getLast? ≠ some '\r' :=
  fun hlast => (trim_eq_self_iff.1 h).2 '\r' hlast (by decide)

/-- A carriage return at the end of a line is a blank. -/
theorem trim_dropReturn (line : List Char) : trim (dropReturn line) = trim line := by
  unfold dropReturn
  split
  · next hlast =>
    obtain ⟨s, rfl⟩ := List.getLast?_eq_some_iff.1 hlast
    rw [List.dropLast_concat, trim_append_blank (by decide)]
  · rfl

theorem dropReturn_of_getLast? (h : s.getLast? ≠ some '\r') : dropReturn s = s := if_neg h

theorem lines_intercalate (h : ∀ line ∈ lines, '\n' ∉ line) : Text.lines (['\n'].intercalate lines) =
    lines.dropLast.map dropReturn ++ lines.getLast?.toList.filter (!·.isEmpty) := by
  by_cases hlines : lines = []
  · subst hlines
    rfl
  · rw [Text.lines, List.splitOn_intercalate '\n' h hlines]

/-- Whether or not a newline ends the text, what comes before the last lines is read as it was written. -/
theorem exists_lines_intercalate_append (hbefore : ∀ line ∈ before, '\n' ∉ line)
    (htail : ∀ line ∈ tail, '\n' ∉ line)
    (hlast : ∀ line ∈ before.getLast?, line ≠ [] ∧ line.getLast? ≠ some '\r') :
    ∃ rest, Text.lines (['\n'].intercalate (before ++ tail)) = before.map dropReturn ++ rest ∧
      ∀ line ∈ rest, ∃ written ∈ tail, trim line = trim written := by
  have hall : ∀ line ∈ before ++ tail, '\n' ∉ line := List.forall_mem_append.2 ⟨hbefore, htail⟩
  rw [lines_intercalate hall]
  rcases List.eq_nil_or_concat tail with rfl | ⟨tail, last, rfl⟩
  · rcases List.eq_nil_or_concat before with rfl | ⟨before, last, rfl⟩
    · exact ⟨[], rfl, nofun⟩
    · obtain ⟨hne, hreturn⟩ := hlast last (by simp)
      refine ⟨[], ?_, nofun⟩
      simp [hne, dropReturn_of_getLast? hreturn]
  · refine ⟨tail.map dropReturn ++ [last].filter (!·.isEmpty), ?_, ?_⟩
    · simp [← List.append_assoc]
    · intro line hline
      rcases List.mem_append.1 hline with hline | hline
      · obtain ⟨written, hwritten, rfl⟩ := List.mem_map.1 hline
        exact ⟨written, by simp [hwritten], trim_dropReturn written⟩
      · obtain rfl := List.mem_singleton.1 (List.mem_filter.1 hline).1
        exact ⟨line, by simp, rfl⟩

end PathAudit.Text
