import PathAudit.Proofs.Text.Place
import PathAudit.Proofs.Text.Split

/-! Lines and columns. The newlines of a text part it into lines, and a place says which line to go to
and how many characters to go on there. The place of an offset leads back to that offset, so places
come in the order of their offsets. -/

namespace PathAudit

namespace Text

def linesLength (lines : List (List Char)) : Nat :=
  byteLength (lines.flatMap (· ++ ['\n']))

/-- The offset that a place leads to: from the start of its line, by as many characters as stand before
its column. There is none when the text has no such line or the line is shorter. -/
def offset? (s : List Char) : LineColumn → Option Nat
  | ⟨line + 1, column + 1⟩ =>
    let lines := s.splitOn '\n'
    lines[line]?.bind fun l =>
      if column ≤ l.length then some (linesLength (lines.take line) + byteLength (l.take column))
      else none
  | _ => none

/-- The first place is on an earlier line, or on the same line further to the left. -/
def LineColumn.Before (p q : LineColumn) : Prop :=
  p.line < q.line ∨ p.line = q.line ∧ p.column < q.column

/-- The text begins with some lines, each with its newline, and goes on with `w` on the next line. -/
structure Begins (s : List Char) (lines : List (List Char)) (w : List Char) : Prop where
  isPrefix : lines.flatMap (· ++ ['\n']) ++ w <+: s
  lines_plain : ∀ line ∈ lines, '\n' ∉ line
  plain : '\n' ∉ w

variable {s w : List Char} {lines : List (List Char)} {n m : Nat} {c : Char} {p q : LineColumn}

theorem utf8ByteSize_ofList (s : List Char) : (String.ofList s).utf8ByteSize = byteLength s := by
  induction s with
  | nil => rfl
  | cons c s ih => simp [String.ofList_cons, ih]

/-- The valid positions of a text are those between its characters. -/
theorem isValid_iff {text : String} : (String.Pos.Raw.mk n).IsValid text ↔
    ∃ before after, text.toList = before ++ after ∧ byteLength before = n := by
  rw [String.Pos.Raw.isValid_iff_exists_append]
  constructor
  · rintro ⟨a, b, rfl, hn⟩
    have hn : n = a.utf8ByteSize := congrArg String.Pos.Raw.byteIdx hn
    refine ⟨a.toList, b.toList, by simp, ?_⟩
    rw [hn, ← utf8ByteSize_ofList, String.ofList_toList]
  · rintro ⟨before, after, htext, rfl⟩
    refine ⟨String.ofList before, String.ofList after, ?_, ?_⟩
    · rw [← String.ofList_append, ← htext, String.ofList_toList]
    · rw [← utf8ByteSize_ofList]
      rfl

theorem exists_of_advance (h : advance p s n = some q) :
    ∃ before after, s = before ++ after ∧ byteLength before = n := by
  fun_induction advance p s n with
  | case1 r => exact ⟨[], r, rfl, rfl⟩
  | case2 => cases h
  | case3 => cases h
  | case4 p r n hn ih =>
    obtain ⟨before, after, rfl, hlen⟩ := ih h
    refine ⟨'\n' :: before, after, rfl, ?_⟩
    rw [byteLength_cons, hlen]
    omega
  | case5 p c r n hn hc ih =>
    obtain ⟨before, after, rfl, hlen⟩ := ih h
    refine ⟨c :: before, after, rfl, ?_⟩
    rw [byteLength_cons, hlen]
    omega

/-- An offset has a place where a character starts or the text ends, and it is the place after the
characters before it. -/
theorem lineColumn?_eq_some_iff : lineColumn? s n = some p ↔
    ∃ before after, s = before ++ after ∧ byteLength before = n ∧
      before.foldl LineColumn.past ⟨1, 1⟩ = p := by
  constructor
  · intro h
    obtain ⟨before, after, rfl, rfl⟩ := exists_of_advance h
    rw [lineColumn?, advance_append] at h
    exact ⟨before, after, rfl, rfl, Option.some.inj h⟩
  · rintro ⟨before, after, rfl, rfl, rfl⟩
    exact advance_append _ _ _

theorem isSome_lineColumn?_iff {text : String} :
    (lineColumn? text.toList n).isSome ↔ (String.Pos.Raw.mk n).IsValid text := by
  rw [Option.isSome_iff_exists, isValid_iff]
  simp only [lineColumn?_eq_some_iff]
  constructor
  · rintro ⟨_, before, after, htext, hn, -⟩
    exact ⟨before, after, htext, hn⟩
  · rintro ⟨before, after, htext, hn⟩
    exact ⟨_, before, after, htext, hn, rfl⟩

theorem foldl_past_line (h : '\n' ∉ w) (p : LineColumn) :
    w.foldl LineColumn.past p = ⟨p.line, p.column + w.length⟩ := by
  induction w generalizing p with
  | nil => rfl
  | cons c w ih =>
    rw [List.mem_cons, not_or] at h
    rw [List.foldl_cons, ih h.2, LineColumn.past, if_neg (Ne.symm h.1), List.length_cons,
      Nat.add_assoc, Nat.add_comm 1]

theorem foldl_past_lines (hlines : ∀ line ∈ lines, '\n' ∉ line) (n : Nat) :
    (lines.flatMap (· ++ ['\n'])).foldl LineColumn.past ⟨n, 1⟩ = ⟨n + lines.length, 1⟩ := by
  induction lines generalizing n with
  | nil => rfl
  | cons line lines ih =>
    obtain ⟨hline, hlines⟩ := List.forall_mem_cons.1 hlines
    rw [List.flatMap_cons, List.foldl_append, List.foldl_append, foldl_past_line hline,
      List.foldl_cons, List.foldl_nil, LineColumn.past, if_pos rfl, ih hlines, List.length_cons,
      Nat.add_right_comm, Nat.add_assoc]

namespace Begins

theorem lineColumn? (h : Begins s lines w) :
    lineColumn? s (linesLength lines + byteLength w) = some ⟨lines.length + 1, w.length + 1⟩ := by
  obtain ⟨rest, rfl⟩ := h.isPrefix
  refine lineColumn?_eq_some_iff.2 ⟨_, rest, rfl, by rw [byteLength_append, linesLength], ?_⟩
  rw [List.foldl_append, foldl_past_lines h.lines_plain, foldl_past_line h.plain, Nat.add_comm 1,
    Nat.add_comm 1]

theorem offset? (h : Begins s lines w) :
    offset? s ⟨lines.length + 1, w.length + 1⟩ = some (linesLength lines + byteLength w) := by
  obtain ⟨rest, hs⟩ := h.isPrefix
  obtain ⟨more, after, hrest⟩ := exists_head_splitOn h.plain rest
  have hsplit : s.splitOn '\n' = lines ++ (w ++ more) :: after := by
    rw [← hs, List.append_assoc, splitOn_parts h.lines_plain, hrest]
  simp [Text.offset?, hsplit]

theorem exists_whole (s : List Char) :
    ∃ lines w, s = lines.flatMap (· ++ ['\n']) ++ w ∧ Begins s lines w := by
  obtain ⟨lines, w, hsplit⟩ : ∃ lines w, s.splitOn '\n' = lines ++ [w] :=
    ⟨_, _, (List.dropLast_concat_getLast (List.splitOn_ne_nil '\n' s)).symm⟩
  have hs : s = lines.flatMap (· ++ ['\n']) ++ w := by simpa using eq_of_splitOn hsplit
  have hplain : ∀ line ∈ lines ++ [w], '\n' ∉ line :=
    fun line hline => not_mem_of_mem_splitOn (hsplit ▸ hline)
  refine ⟨lines, w, hs, hs ▸ List.prefix_rfl, ?_, hplain w (by simp)⟩
  exact fun line hline => hplain line (by simp [hline])

theorem of_lineColumn? (h : Text.lineColumn? s n = some p) :
    ∃ lines w, Begins s lines w ∧ n = linesLength lines + byteLength w := by
  obtain ⟨before, after, rfl, rfl, -⟩ := lineColumn?_eq_some_iff.1 h
  obtain ⟨lines, w, rfl, hbegins⟩ := exists_whole before
  refine ⟨lines, w, ⟨List.prefix_append _ _, hbegins.lines_plain, hbegins.plain⟩, ?_⟩
  rw [byteLength_append, linesLength]

theorem of_offset? (h : Text.offset? s p = some n) :
    ∃ lines w, Begins s lines w ∧ p = ⟨lines.length + 1, w.length + 1⟩ := by
  obtain ⟨line, column⟩ := p
  match line, column, h with
  | line + 1, column + 1, h =>
    simp only [Text.offset?, Option.bind_eq_some_iff, List.getElem?_eq_some_iff,
      Option.ite_none_right_eq_some] at h
    obtain ⟨l, ⟨hline, hl⟩, hcolumn, -⟩ := h
    have hsplit : s.splitOn '\n' = (s.splitOn '\n').take line ++ l :: (s.splitOn '\n').drop (line + 1) := by
      rw [← hl, ← List.drop_eq_getElem_cons hline, List.take_append_drop]
    have hplain : ∀ part ∈ s.splitOn '\n', '\n' ∉ part := fun _ => not_mem_of_mem_splitOn
    refine ⟨(s.splitOn '\n').take line, l.take column, ⟨?_, ?_, ?_⟩, ?_⟩
    · have hs := eq_of_splitOn hsplit
      have hl : l.take column <+: l ++ ((s.splitOn '\n').drop (line + 1)).flatMap (['\n'] ++ ·) :=
        (List.take_prefix column l).trans (List.prefix_append _ _)
      have hpre := (List.prefix_append_right_inj (((s.splitOn '\n').take line).flatMap (· ++ ['\n']))).2 hl
      rwa [← hs] at hpre
    · exact fun part hpart => hplain part (List.mem_of_mem_take hpart)
    · exact fun hn => hplain l (hl ▸ List.getElem_mem _) (List.mem_of_mem_take hn)
    · rw [List.length_take_of_le (Nat.le_of_lt hline), List.length_take_of_le hcolumn]

end Begins

/-- Places and offsets lead to each other. -/
theorem lineColumn?_iff_offset? : lineColumn? s n = some p ↔ offset? s p = some n := by
  constructor
  · intro h
    obtain ⟨lines, w, hbegins, rfl⟩ := Begins.of_lineColumn? h
    rw [hbegins.lineColumn?] at h
    rw [← Option.some.inj h, hbegins.offset?]
  · intro h
    obtain ⟨lines, w, hbegins, rfl⟩ := Begins.of_offset? h
    rw [hbegins.offset?] at h
    rw [← Option.some.inj h, hbegins.lineColumn?]

theorem LineColumn.before_past (p : LineColumn) (c : Char) : p.Before (p.past c) := by
  unfold past Before
  split
  · exact .inl (Nat.lt_succ_self _)
  · exact .inr ⟨rfl, Nat.lt_succ_self _⟩

theorem LineColumn.Before.trans {r : LineColumn} (h : p.Before q) (h' : q.Before r) : p.Before r := by
  unfold Before at *
  omega

theorem LineColumn.before_foldl_past (hw : w ≠ []) (p : LineColumn) : p.Before (w.foldl past p) := by
  induction w generalizing p with
  | nil => exact absurd rfl hw
  | cons c w ih =>
    by_cases hrest : w = []
    · subst hrest
      exact p.before_past c
    · exact (p.before_past c).trans (ih hrest _)

theorem before_of_lt (hp : lineColumn? s n = some p) (hq : lineColumn? s m = some q) (h : n < m) :
    p.Before q := by
  obtain ⟨a, rest, hs, rfl, rfl⟩ := lineColumn?_eq_some_iff.1 hp
  obtain ⟨b, rest', hs', rfl, rfl⟩ := lineColumn?_eq_some_iff.1 hq
  rcases List.prefix_or_prefix_of_prefix (hs ▸ List.prefix_append a rest)
    (hs' ▸ List.prefix_append b rest') with ⟨t, rfl⟩ | ⟨t, rfl⟩
  · have ht : t ≠ [] := by
      rintro rfl
      simp at h
    rw [List.foldl_append]
    exact LineColumn.before_foldl_past ht _
  · rw [byteLength_append] at h
    omega

theorem lt_iff_before (hp : lineColumn? s n = some p) (hq : lineColumn? s m = some q) :
    n < m ↔ p.Before q := by
  refine ⟨before_of_lt hp hq, fun h => ?_⟩
  rcases Nat.lt_trichotomy n m with hlt | rfl | hgt
  · exact hlt
  · rw [hp] at hq
    cases hq
    unfold LineColumn.Before at h
    omega
  · have := before_of_lt hq hp hgt
    unfold LineColumn.Before at h this
    omega

end Text

namespace Diagnostic

variable {d d' : Diagnostic} {e e' : Extent}

/-- A diagnostic has a line and a column exactly when it starts at a character of the text or at its
end. They lead back to the start, and no other place does; so over one text the places come in the
order of the starts, and different starts have different places. -/
theorem place_leads_back (text : String) (he : d.extent = some e) (he' : d'.extent = some e') :
    ((d.lineColumn? text).isSome ↔
      e.start ≤ text.utf8ByteSize ∧ (String.Pos.Raw.mk e.start).IsValid text) ∧
    (∀ p, d.lineColumn? text = some p ↔ Text.offset? text.toList p = some e.start) ∧
    ∀ p q, d.lineColumn? text = some p → d'.lineColumn? text = some q →
      (e.start < e'.start ↔ p.Before q) ∧ (e.start = e'.start ↔ p = q) := by
  have hd : d.lineColumn? text = Text.lineColumn? text.toList e.start := by
    rw [lineColumn?, he, Option.bind_some]
  have hd' : d'.lineColumn? text = Text.lineColumn? text.toList e'.start := by
    rw [lineColumn?, he', Option.bind_some]
  rw [hd, hd']
  refine ⟨?_, fun p => Text.lineColumn?_iff_offset?, ?_⟩
  · rw [Text.isSome_lineColumn?_iff]
    exact ⟨fun h => ⟨h.le_rawEndPos, h⟩, And.right⟩
  · intro p q hp hq
    refine ⟨Text.lt_iff_before hp hq, ?_, ?_⟩
    · intro h
      rw [h, hq] at hp
      exact (Option.some.inj hp).symm
    · rintro rfl
      have hp := Text.lineColumn?_iff_offset?.1 hp
      rw [Text.lineColumn?_iff_offset?.1 hq] at hp
      exact (Option.some.inj hp).symm

/-- A start at a newline is on the line that the newline ends, and before one on the next line; a start
inside a character has no place. -/
theorem newline_ends_its_line :
    let text := "é\nx"
    let starting (n : Nat) : Diagnostic := ⟨.error, 9999, "", none, some ⟨n, 1⟩⟩
    (starting 2).lineColumn? text = some ⟨1, 2⟩ ∧ (starting 3).lineColumn? text = some ⟨2, 1⟩ ∧
      (⟨1, 2⟩ : Text.LineColumn).Before ⟨2, 1⟩ ∧ ¬(String.Pos.Raw.mk 1).IsValid text := by
  intro text starting
  have hfirst : (starting 2).lineColumn? text = some ⟨1, 2⟩ := by decide +kernel
  have hnext : (starting 3).lineColumn? text = some ⟨2, 1⟩ := by decide +kernel
  have hextent (n : Nat) : (starting n).extent = some ⟨n, 1⟩ := rfl
  obtain ⟨-, -, horder⟩ := place_leads_back text (hextent 2) (hextent 3)
  obtain ⟨hplace, -, -⟩ := place_leads_back text (hextent 1) (hextent 1)
  refine ⟨hfirst, hnext, (horder _ _ hfirst hnext).1.1 (by decide), fun hvalid => ?_⟩
  have hnone : (starting 1).lineColumn? text = none := by decide +kernel
  have hsome := hplace.2 ⟨by decide, hvalid⟩
  rw [hnone] at hsome
  cases hsome

end Diagnostic

end PathAudit
