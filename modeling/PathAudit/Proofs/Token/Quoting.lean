import PathAudit.Proofs.Token.Escapes
import PathAudit.Text.Quoted

/-! A quoted text is a literal with that value. Each character is quoted by itself, as a piece that means
it: as itself or as an escape. -/

namespace PathAudit.Token

open Lexeme Pattern Text

variable {c : Char} {n : Nat} {r s w : List Char}

theorem digitChar_eq_char : ∀ d : Fin 16, Nat.digitChar d = HexDigit.char ⟨d, false⟩ := by decide

theorem exists_hexDigits (n : Nat) :
    ∃ ds, ds ≠ [] ∧ hexDigits n = ds.map HexDigit.char ∧ HexDigit.number ds = n := by
  induction n using Nat.strongRecOn with
  | ind n ih =>
    rw [hexDigits, Nat.toDigits_eq_if (by decide)]
    split
    · next hn =>
      refine ⟨[⟨⟨n, hn⟩, false⟩], List.cons_ne_nil _ _, ?_, ?_⟩
      · exact congrArg (fun c => [c]) (digitChar_eq_char ⟨n, hn⟩)
      · simp [HexDigit.number]
    · next hn =>
      obtain ⟨ds, -, hds, hnumber⟩ := ih (n / 16) (by omega)
      have hlast : n % 16 < 16 := Nat.mod_lt n (by decide)
      refine ⟨ds ++ [⟨⟨n % 16, hlast⟩, false⟩], by simp, ?_, ?_⟩
      · rw [← hexDigits, hds, List.map_append]
        exact congrArg (_ ++ [·]) (digitChar_eq_char ⟨n % 16, hlast⟩)
      · rw [HexDigit.number_append, hnumber]
        exact Nat.div_add_mod n 16

theorem plain_of_mem_hexDigits (h : c ∈ hexDigits n) :
    ∀ d ∈ ['\\', '"', '\'', '\n', '+', '\x7b', '\x7d'], c ≠ d := by
  obtain ⟨ds, -, hds, -⟩ := exists_hexDigits n
  rw [hds] at h
  obtain ⟨d, -, rfl⟩ := List.mem_map.1 h
  exact d.char_ne

theorem exists_codePointEscape (c : Char) :
    ∃ p : Piece .double, p.text = codePointEscape c ∧ p.meaning = [c] := by
  obtain ⟨ds, hne, hds, hnumber⟩ := exists_hexDigits c.toNat
  obtain ⟨first, more, rfl⟩ := List.exists_cons_of_ne_nil hne
  refine ⟨.braced first more, ?_, ?_⟩
  · rw [codePointEscape, hds]
    rfl
  · rw [Piece.meaning, hnumber, scalarChar_toNat]

/-- A character is quoted as a piece that means it. -/
theorem exists_quoteChar (c : Char) :
    ∃ p : Piece .double, p.text = quoteChar c ∧ p.meaning = [c] := by
  unfold quoteChar
  split
  · exact ⟨.control '0' '\x00' (by decide), rfl, rfl⟩
  · exact ⟨.control 't' '\t' (by decide), rfl, rfl⟩
  · exact ⟨.control 'r' '\r' (by decide), rfl, rfl⟩
  · exact ⟨.control 'n' '\n' (by decide), rfl, rfl⟩
  · exact ⟨.itself '\\' (by decide), rfl, rfl⟩
  · exact ⟨.itself '"' (by decide), rfl, rfl⟩
  · next h1 h2 h3 h4 h5 h6 =>
    split
    · exact exists_codePointEscape c
    · exact ⟨.plain c ⟨h6, h5, h4⟩, rfl, rfl⟩

theorem exists_quoted (s : List Char) :
    ∃ ps : List (Piece .double), ps.flatMap Piece.text = s.flatMap quoteChar ∧
      ps.flatMap Piece.meaning = s := by
  induction s with
  | nil => exact ⟨[], rfl, rfl⟩
  | cons c s ih =>
    obtain ⟨ps, htext, hmeaning⟩ := ih
    obtain ⟨p, hp, hpm⟩ := exists_quoteChar c
    exact ⟨p :: ps, by simp [htext, hp], by simp [hmeaning, hpm]⟩

theorem literalValue_quote (s : List Char) : literalValue (s.flatMap quoteChar) = s := by
  obtain ⟨ps, htext, hmeaning⟩ := exists_quoted s
  rw [← htext, Piece.literalValue_texts, hmeaning]

theorem quote_mem_body (s : List Char) : s.flatMap quoteChar ∈ body '"' false := by
  obtain ⟨ps, htext, -⟩ := exists_quoted s
  exact htext ▸ Piece.texts_mem_body ps

end PathAudit.Token
