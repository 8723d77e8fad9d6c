/-! Texts split at a separator: the parts hold none, and the text is these parts with a separator
between each two. -/

namespace PathAudit

theorem intercalate_cons_flatMap {α : Type} (sep x : List α) (xs : List (List α)) :
    sep.intercalate (x :: xs) = x ++ xs.flatMap (sep ++ ·) := by
  induction xs generalizing x with
  | nil => rw [List.intercalate_singleton, List.flatMap_nil, List.append_nil]
  | cons y ys ih =>
    rw [List.intercalate_cons_cons, ih, List.flatMap_cons, List.append_assoc, List.append_assoc]

namespace Text

variable {sep : Char} {part s : List Char} {parts : List (List Char)}

theorem not_mem_of_mem_splitOn (h : part ∈ s.splitOn sep) : sep ∉ part := by
  induction s generalizing part with
  | nil => simp_all
  | cons c s ih =>
    rw [List.splitOn_cons_eq_if_modifyHead] at h
    split at h
    · rcases List.mem_cons.1 h with rfl | h
      · exact List.not_mem_nil
      · exact ih h
    · next hc =>
      cases hs : s.splitOn sep with
      | nil => simp [hs] at h
      | cons head rest =>
        rw [hs, List.modifyHead_cons] at h
        rcases List.mem_cons.1 h with rfl | h
        · have := ih (hs ▸ List.mem_cons_self)
          grind
        · exact ih (hs ▸ List.mem_cons_of_mem _ h)

/-- Parts with a separator after each come first in what the text is split into. -/
theorem splitOn_parts (h : ∀ part ∈ parts, sep ∉ part) (s : List Char) :
    (parts.flatMap (· ++ [sep]) ++ s).splitOn sep = parts ++ s.splitOn sep := by
  induction parts with
  | nil => rfl
  | cons part parts ih =>
    obtain ⟨hpart, hparts⟩ := List.forall_mem_cons.1 h
    rw [List.flatMap_cons, List.append_assoc, List.append_assoc, List.singleton_append,
      List.splitOn_append_cons_self_of_not_mem hpart, ih hparts, List.cons_append]

theorem exists_head_splitOn (h : sep ∉ part) (s : List Char) :
    ∃ more after, (part ++ s).splitOn sep = (part ++ more) :: after := by
  by_cases hs : sep ∈ s
  · obtain ⟨more, rest, rfl, hmore⟩ := List.eq_append_cons_of_mem hs
    have hhead : sep ∉ part ++ more := by simp [h, hmore]
    refine ⟨more, rest.splitOn sep, ?_⟩
    rw [← List.append_assoc, List.splitOn_append_cons_self_of_not_mem hhead]
  · exact ⟨s, [], List.splitOn_eq_singleton (by simp [h, hs])⟩

/-- A part stands in the text after the parts before it, with a separator after each of them, and before
those after it, with a separator before each of them. -/
theorem eq_of_splitOn {before after : List (List Char)} (h : s.splitOn sep = before ++ part :: after) :
    s = before.flatMap (· ++ [sep]) ++ (part ++ after.flatMap ([sep] ++ ·)) := by
  have hparts : [sep].intercalate (s.splitOn sep) = s := List.intercalate_splitOn sep
  rw [← hparts, h]
  clear hparts h
  induction before with
  | nil => exact intercalate_cons_flatMap [sep] part after
  | cons first before ih =>
    obtain ⟨next, more, hmore⟩ := List.exists_cons_of_ne_nil
      (List.append_ne_nil_of_right_ne_nil before (List.cons_ne_nil part after))
    rw [List.cons_append, hmore, List.intercalate_cons_cons, ← hmore, ih, List.flatMap_cons,
      List.append_assoc, List.append_assoc, List.append_assoc]

end Text

end PathAudit
