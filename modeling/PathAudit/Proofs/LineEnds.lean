import PathAudit.Proofs.Syntax.Bare
import PathAudit.Proofs.Token.Returns

/-! Line ends. A source text may end its lines with a newline or with a carriage return and a newline, and
the tokens are the same, unless a quoted literal goes on over a newline. There the carriage return comes
between the newline and the backslash that takes it into the literal, and no literal is left. -/

namespace PathAudit

open Lexeme

def withReturns (source : String) : String := String.ofList (Text.withReturns source.toList)

theorem Scan.map_token_ofText (source : String) :
    (ofText source).tokens.map PlacedToken.token = tokensIn source.toList :=
  map_token_resume 0 source.toList

/-- Carriage returns before the newlines leave the tokens as they are, but for their places, exactly if
every quoted literal is on one line; and if so, they leave what is declared as it is. -/
theorem declared_with_returns (source : String) :
    ((Scan.ofText (withReturns source)).tokens.map PlacedToken.token =
        (Scan.ofText source).tokens.map PlacedToken.token ↔ LiteralsOnOneLine source.toList) ∧
      (LiteralsOnOneLine source.toList →
        (Parsed.ofText (withReturns source)).outline.pathDeclarations.map PathDeclaration.content =
          (Parsed.ofText source).outline.pathDeclarations.map PathDeclaration.content) := by
  have htokens : (Scan.ofText (withReturns source)).tokens.map PlacedToken.token =
      (Scan.ofText source).tokens.map PlacedToken.token ↔ LiteralsOnOneLine source.toList := by
    rw [Scan.map_token_ofText, Scan.map_token_ofText, withReturns, String.toList_ofList]
    exact tokensIn_withReturns_iff source.toList
  exact ⟨htokens, fun h => content_of_tokens (htokens.2 h)⟩

/-- A declaration over several lines, with newlines between tokens, in both sorts of comment and in a
template. -/
def spreadSource : String :=
  "let t = \x60\n\\\n'\x60, // \"\np\n: FilePathStr /* ' \n* \n/*/ =\n\"a\\\"b\";"

theorem spread_declared_with_returns :
    LiteralsOnOneLine spreadSource.toList ∧
      (Parsed.ofText (withReturns spreadSource)).outline.pathDeclarations.map PathDeclaration.content =
        [(.file, "p", "a\"b")] := by
  have hline : LiteralsOnOneLine spreadSource.toList := by decide +kernel
  have hscan : Scan.ofText spreadSource = ⟨[⟨.keyword .lexical, ⟨0, 3⟩⟩,
      ⟨.identifier "t", ⟨4, 5⟩⟩, ⟨.punctuation .equals, ⟨6, 7⟩⟩, ⟨.template, ⟨8, 14⟩⟩,
      ⟨.punctuation .comma, ⟨14, 15⟩⟩, ⟨.identifier "p", ⟨21, 22⟩⟩, ⟨.punctuation .colon, ⟨23, 24⟩⟩,
      ⟨.identifier "FilePathStr", ⟨25, 36⟩⟩, ⟨.punctuation .equals, ⟨50, 51⟩⟩,
      ⟨.string "a\"b", ⟨52, 58⟩⟩, ⟨.punctuation .semicolon, ⟨58, 59⟩⟩], []⟩ := by decide +kernel
  refine ⟨hline, ?_⟩
  rw [(declared_with_returns spreadSource).2 hline, Parsed.ofText, hscan]
  cbv

def continuedSource : String := "const p: FilePathStr = \"a\\\nb\";"

/-- The path of a literal that goes on over a newline is not declared any more. -/
theorem continued_literal_is_lost :
    '\r' ∉ continuedSource.toList ∧
      (Parsed.ofText continuedSource).outline.pathDeclarations.map PathDeclaration.content =
        [(.file, "p", "ab")] ∧
      (Parsed.ofText (withReturns continuedSource)).outline.pathDeclarations = [] := by
  have hscan : Scan.ofText continuedSource = ⟨[⟨.keyword .const, ⟨0, 5⟩⟩,
      ⟨.identifier "p", ⟨6, 7⟩⟩, ⟨.punctuation .colon, ⟨7, 8⟩⟩, ⟨.identifier "FilePathStr", ⟨9, 20⟩⟩,
      ⟨.punctuation .equals, ⟨21, 22⟩⟩, ⟨.string "ab", ⟨23, 29⟩⟩,
      ⟨.punctuation .semicolon, ⟨29, 30⟩⟩], []⟩ := by decide +kernel
  have hreturned : Scan.ofText (withReturns continuedSource) = ⟨[⟨.keyword .const, ⟨0, 5⟩⟩,
      ⟨.identifier "p", ⟨6, 7⟩⟩, ⟨.punctuation .colon, ⟨7, 8⟩⟩, ⟨.identifier "FilePathStr", ⟨9, 20⟩⟩,
      ⟨.punctuation .equals, ⟨21, 22⟩⟩, ⟨.other '"', ⟨23, 24⟩⟩, ⟨.identifier "a", ⟨24, 25⟩⟩,
      ⟨.other '\\', ⟨25, 26⟩⟩, ⟨.identifier "b", ⟨28, 29⟩⟩, ⟨.other '"', ⟨29, 30⟩⟩,
      ⟨.punctuation .semicolon, ⟨30, 31⟩⟩], []⟩ := by decide +kernel
  rw [Parsed.ofText, hscan, Parsed.ofText, hreturned]
  exact ⟨by decide, by cbv, by cbv⟩

end PathAudit
