import Mathlib.Data.Nat.Digits.Defs
import PathAudit.Proofs.Token.Collects
import PathAudit.Proofs.Token.LongestMatch

/-! The bodies of quoted literals, piece by piece. A piece is a character that stands for itself or an
escape with all that belongs to it. The search for the closing quote and the reader of escapes both go
over whole pieces, so neither depends on what comes after one. -/

namespace PathAudit

open Lexeme Pattern

/-- A digit in base sixteen, written as a capital or as a small letter if it is one. -/
structure HexDigit where
  value : Fin 16
  capital : Bool

namespace HexDigit

def char (d : HexDigit) : Char :=
  if d.capital then (Nat.digitChar d.value).toUpper else Nat.digitChar d.value

def number (ds : List HexDigit) : Nat :=
  Nat.ofDigits 16 (ds.reverse.map (·.value.val))

theorem hexDigit?_char (d : HexDigit) : Token.hexDigit? d.char = some d.value.val := by
  obtain ⟨value, capital⟩ := d
  revert value capital
  decide

/-- The characters that mean something else in a literal are no digits. -/
theorem char_ne (d : HexDigit) :
    ∀ c ∈ ['\\', '"', '\'', '\n', '+', '\x7b', '\x7d'], d.char ≠ c := by
  have hall : ∀ value : Fin 16, ∀ capital : Bool,
      (mk value capital).char ∉ ['\\', '"', '\'', '\n', '+', '\x7b', '\x7d'] := by decide
  intro c hc he
  exact hall d.value d.capital (he ▸ hc)

theorem foldlM_chars (ds : List HexDigit) (n : Nat) :
    (ds.map char).foldlM (fun n c => (Token.hexDigit? c).map (16 * n + ·)) n =
      some (ds.foldl (fun n d => 16 * n + d.value.val) n) := by
  induction ds generalizing n with
  | nil => rfl
  | cons d ds ih => simp [hexDigit?_char, ih]

theorem number_append (ds : List HexDigit) (d : HexDigit) :
    number (ds ++ [d]) = 16 * number ds + d.value.val := by
  rw [number, List.reverse_append, List.reverse_singleton, List.singleton_append, List.map_cons,
    Nat.ofDigits_cons, Nat.add_comm]
  rfl

theorem number_eq_foldl (ds : List HexDigit) :
    number ds = ds.foldl (fun n d => 16 * n + d.value.val) 0 := by
  rw [number, Nat.ofDigits_eq_foldr, List.foldr_map, List.foldr_reverse]
  simp only [Nat.cast_id, Nat.add_comm]

theorem hexValue?_chars {ds : List HexDigit} (h : ds ≠ []) :
    Token.hexValue? (ds.map char) = some (number ds) := by
  have hplus : ∀ r, ds.map char ≠ '+' :: r := by
    intro r hr
    obtain ⟨d, ds', rfl, hd, -⟩ := List.map_eq_cons_iff.1 hr
    exact d.char_ne '+' (by decide) hd
  unfold Token.hexValue?
  split
  · next r hr => exact absurd hr (hplus r)
  · rw [if_neg (by simpa using h), foldlM_chars, number_eq_foldl]

end HexDigit

/-- The character with that code point, or the replacement character if there is none. -/
def scalarChar (n : Nat) : Char :=
  if n.isValidChar then Char.ofNat n else '\uFFFD'

theorem scalarChar_toNat (c : Char) : scalarChar c.toNat = c := by
  have hvalid : c.toNat.isValidChar := c.valid
  rw [scalarChar, if_pos hvalid, Char.ofNat_toNat]

theorem payloadChar_chars {ds : List HexDigit} (h : ds ≠ []) :
    Token.payloadChar (ds.map HexDigit.char) = scalarChar (HexDigit.number ds) := by
  rw [Token.payloadChar, HexDigit.hexValue?_chars h]
  rfl

inductive Quote
  | double
  | single

def Quote.mark : Quote → Char
  | .double => '"'
  | .single => '\''

/-- The letters that stand for control characters after a backslash. -/
def controls : List (Char × Char) :=
  [('n', '\n'), ('t', '\t'), ('r', '\r'), ('b', '\x08'), ('f', '\x0c'), ('v', '\x0b'), ('0', '\x00')]

inductive Piece (quote : Quote)
  | plain (c : Char) (h : c ≠ quote.mark ∧ c ≠ '\\' ∧ c ≠ '\n')
  | control (letter meaning : Char) (h : (letter, meaning) ∈ controls)
  /-- A newline that is none of the value. -/
  | continuation
  | byte (a b : HexDigit)
  | unit (a b c d : HexDigit)
  | braced (first : HexDigit) (more : List HexDigit)
  /-- Any other character after a backslash. -/
  | itself (c : Char) (h : c ∉ ['\n', 'x', 'u'] ∧ ∀ p ∈ controls, p.1 ≠ c)

namespace Piece

variable {quote : Quote} {r w : List Char}

def text : Piece quote → List Char
  | plain c _ => [c]
  | control letter _ _ => ['\\', letter]
  | continuation => ['\\', '\n']
  | byte a b => '\\' :: 'x' :: [a, b].map HexDigit.char
  | unit a b c d => '\\' :: 'u' :: [a, b, c, d].map HexDigit.char
  | braced first more => '\\' :: 'u' :: '\x7b' :: ((first :: more).map HexDigit.char ++ ['\x7d'])
  | itself c _ => ['\\', c]

def meaning : Piece quote → List Char
  | plain c _ => [c]
  | control _ meaning _ => [meaning]
  | continuation => []
  | byte a b => [scalarChar (HexDigit.number [a, b])]
  | unit a b c d => [scalarChar (HexDigit.number [a, b, c, d])]
  | braced first more => [scalarChar (HexDigit.number (first :: more))]
  | itself c _ => [c]

theorem digits_mem_body (ds : List HexDigit) (hw : w ∈ body quote.mark false) :
    ds.map HexDigit.char ++ w ∈ body quote.mark false := by
  induction ds with
  | nil => exact hw
  | cons d ds ih =>
    have hmark : d.char ≠ quote.mark := by
      cases quote
      · exact d.char_ne '"' (by decide)
      · exact d.char_ne '\'' (by decide)
    exact plain_mem_body (d.char_ne _ (by decide)) hmark (.inr (d.char_ne _ (by decide))) ih

theorem text_mem_body (p : Piece quote) (hw : w ∈ body quote.mark false) :
    p.text ++ w ∈ body quote.mark false := by
  cases p with
  | plain c h => exact plain_mem_body h.2.1 h.1 (.inr h.2.2) hw
  | control | continuation | itself => exact escape_mem_body hw
  | byte | unit => exact escape_mem_body (digits_mem_body _ hw)
  | braced first more =>
    have hbrace (c : Char) (h : c = '\x7b' ∨ c = '\x7d') {w : List Char}
        (hw : w ∈ body quote.mark false) : c :: w ∈ body quote.mark false := by
      rcases h with rfl | rfl <;> cases quote <;>
        exact plain_mem_body (by decide) (by decide) (.inr (by decide)) hw
    rw [text, List.cons_append, List.cons_append, List.cons_append, List.append_assoc]
    exact escape_mem_body (hbrace _ (.inl rfl) (digits_mem_body _ (hbrace _ (.inr rfl) hw)))

end Piece

namespace Token

variable {c : Char} {r m : List Char}

theorem literalValue_plain (hc : c ≠ '\\') : literalValue (c :: r) = c :: literalValue r := by
  rw [literalValue]
  · rintro d r' rfl
    exact absurd rfl hc
  · rintro rfl
    exact absurd rfl hc

theorem literalValue_escape (h : escape c r = ⟨m, 0⟩) :
    literalValue ('\\' :: c :: r) = m ++ literalValue r := by
  rw [literalValue, h, List.drop_zero]

end Token

open Token

namespace Piece

variable {quote : Quote}

theorem escape_control (h : (c, m) ∈ controls) (r : List Char) : escape c r = ⟨[m], 0⟩ := by
  have hall : ∀ p ∈ controls, escape p.1 r = ⟨[p.2], 0⟩ := by simp [controls, escape]
  exact hall _ h

theorem escape_itself (h : c ∉ ['\n', 'x', 'u'] ∧ ∀ p ∈ controls, p.1 ≠ c) (r : List Char) :
    escape c r = ⟨[c], 0⟩ := by
  simp only [controls, List.mem_cons, List.not_mem_nil, or_false, not_or, forall_eq_or_imp,
    forall_eq] at h
  unfold escape
  split <;> simp_all

/-- The reader of escapes takes a piece for what it means. -/
theorem literalValue_text (p : Piece quote) (r : List Char) :
    literalValue (p.text ++ r) = p.meaning ++ literalValue r := by
  cases p with
  | plain c h => exact literalValue_plain h.2.1
  | control letter meaning h => exact literalValue_escape (escape_control h r)
  | continuation => exact literalValue_escape rfl
  | itself c h => exact literalValue_escape (escape_itself h r)
  | byte a b =>
    rw [meaning, ← payloadChar_chars (List.cons_ne_nil _ _)]
    exact literalValue_coded (.byte (.inl rfl))
  | unit a b c d =>
    have hbrace : ∀ s, [a, b, c, d].map HexDigit.char ++ r ≠ '\x7b' :: s :=
      fun s hs => absurd (List.cons.inj hs).1 (a.char_ne _ (by decide))
    rw [meaning, ← payloadChar_chars (List.cons_ne_nil _ _)]
    exact literalValue_coded (.unit hbrace (.inl rfl))
  | braced first more =>
    have hclosing : '\x7d' ∉ (first :: more).map HexDigit.char := by
      intro hc
      obtain ⟨d, -, hd⟩ := List.mem_map.1 hc
      exact d.char_ne _ (by decide) hd
    have happend : (braced first more : Piece quote).text ++ r =
        '\\' :: 'u' :: '\x7b' :: ((first :: more).map HexDigit.char ++ '\x7d' :: r) := by simp [text]
    rw [happend, meaning, ← payloadChar_chars (List.cons_ne_nil _ _)]
    exact literalValue_coded (.braced hclosing)

theorem texts_mem_body (ps : List (Piece quote)) : ps.flatMap text ∈ body quote.mark false := by
  induction ps with
  | nil => exact Language.nil_mem_kstar _
  | cons p ps ih => exact p.text_mem_body ih

theorem literalValue_texts (ps : List (Piece quote)) :
    literalValue (ps.flatMap text) = ps.flatMap meaning := by
  induction ps with
  | nil => rw [List.flatMap_nil, literalValue, List.flatMap_nil]
  | cons p ps ih => rw [List.flatMap_cons, literalValue_text, ih, List.flatMap_cons]

end Piece

def Quote.pattern : Quote → Pattern
  | .double => .doubleQuoted
  | .single => .singleQuoted

/-- A literal ends at its closing quote, whatever comes after it. -/
theorem munch_literal (quote : Quote) {v : List Char} (hv : v ∈ body quote.mark false) (rest : List Char) :
    Munch (quote.mark :: (v ++ [quote.mark]) ++ rest) quote.pattern
      (quote.mark :: (v ++ [quote.mark])) := by
  have hmark : quote.mark ≠ '\\' := by cases quote <;> decide
  have hclosing : closing quote.mark false (v ++ [quote.mark] ++ rest) = some (v ++ [quote.mark]).length := by
    rw [List.append_assoc, List.singleton_append, closing_body hmark hv, List.length_append]
    rfl
  have hmunch : Munch (quote.mark :: (v ++ [quote.mark] ++ rest)) quote.pattern
      (quote.mark :: (v ++ [quote.mark] ++ rest).take (v ++ [quote.mark]).length) := by
    cases quote
    · exact munch_quotedBy hmark rfl (fun q => eq_of_lead_doubleQuote) hclosing
    · exact munch_quotedBy hmark rfl (fun q => eq_of_lead_singleQuote) hclosing
  rwa [List.take_left] at hmunch

theorem kind_literal (quote : Quote) (v : List Char) :
    quote.pattern.kind (quote.mark :: (v ++ [quote.mark])) =
      .token (.string (String.ofList (literalValue v))) := by
  cases quote <;> rw [Quote.pattern, Pattern.kind, List.tail_cons, List.dropLast_concat]

end PathAudit
