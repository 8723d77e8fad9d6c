import PathAudit.Proofs.Token.Layout

/-! Whole literals. Pieces between quotes are read as one string token, and its value is what the pieces
mean, one after the other. -/

namespace PathAudit

open Lexeme Pattern

def Quote.literal (quote : Quote) (pieces : List (Piece quote)) : List Char :=
  quote.mark :: (pieces.flatMap Piece.text ++ [quote.mark])

/-- A literal of either kind is one string token, whatever pieces it is made of, and the value is what
they mean. -/
theorem Scan.ofText_literal (quote : Quote) (pieces : List (Piece quote)) :
    ofText (String.ofList (quote.literal pieces)) =
      ⟨[⟨.string (String.ofList (pieces.flatMap Piece.meaning)),
        ⟨0, Text.byteLength (quote.literal pieces)⟩⟩], []⟩ := by
  have hmunch := munch_literal quote (Piece.texts_mem_body pieces) []
  have hread := ofText_of_munch hmunch
  rw [kind_literal, Piece.literalValue_texts] at hread
  exact ofText_of_token hread

example : Scan.ofText "'\\uD800\\'\\u\x7bfF\x7d\\\\n'" =
    ⟨[⟨.string "\uFFFD'ÿ\\n", ⟨0, 19⟩⟩], []⟩ := by
  decide +kernel

end PathAudit
