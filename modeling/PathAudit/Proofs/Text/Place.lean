import PathAudit.Diagnostic

/-! Pieces of a text and the bytes that they take up. A piece begins at a character, so there is a
line and a column for its place. -/

namespace PathAudit

namespace Text

def LineColumn.past (place : LineColumn) (c : Char) : LineColumn :=
  if c = '\n' then ⟨place.line + 1, 1⟩ else ⟨place.line, place.column + 1⟩

theorem advance_zero (place : LineColumn) (s : List Char) : advance place s 0 = some place := by
  cases s <;> rfl

theorem advance_append (place : LineColumn) (before rest : List Char) :
    advance place (before ++ rest) (byteLength before) =
      some (before.foldl LineColumn.past place) := by
  induction before generalizing place with
  | nil => exact advance_zero place rest
  | cons c before ih =>
    obtain ⟨n, hn⟩ : ∃ n, byteLength (c :: before) = n + 1 :=
      ⟨_, (Nat.succ_pred_eq_of_pos (Nat.add_pos_left (Char.utf8Size_pos c) _)).symm⟩
    have hstop : ¬n + 1 < c.utf8Size := by
      rw [← hn, byteLength_cons]
      omega
    have hrest : n + 1 - c.utf8Size = byteLength before := by
      rw [← hn, byteLength_cons]
      omega
    rw [hn, List.cons_append, advance, if_neg hstop, hrest, ih, ih, List.foldl_cons]
    by_cases hc : c = '\n'
    · rw [if_pos hc, LineColumn.past, if_pos hc]
    · rw [if_neg hc, LineColumn.past, if_neg hc]

end Text

/-- Holds when the bytes of an extent are those of a piece of a text. -/
def Extent.Marks (e : Extent) (text : String) (piece : List Char) : Prop :=
  ∃ before after, text.toList = before ++ piece ++ after ∧
    e = ⟨Text.byteLength before, Text.byteLength piece⟩

theorem Extent.Marks.isSome_lineColumn? {e : Extent} {text : String} {piece : List Char}
    (h : e.Marks text piece) : (Text.lineColumn? text.toList e.start).isSome := by
  obtain ⟨before, after, htext, rfl⟩ := h
  rw [htext, List.append_assoc, Text.lineColumn?, Text.advance_append]
  rfl

end PathAudit
