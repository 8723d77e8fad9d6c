import Mathlib.Computability.Language
import PathAudit.Token.Lexer

/-! The patterns of lexemes as languages over characters, written with choice, sequence and
repetition, and what it takes to be a word of the simplest of them. -/

namespace PathAudit

open Computability Lexeme

/-- What a lexeme may be. -/
inductive Pattern
  | skipped
  | lineComment
  | blockComment
  | keyword (word : Keyword)
  | punctuation (mark : Punctuation)
  | doubleQuoted
  | singleQuoted
  | template
  | number
  | identifier
  | other
deriving DecidableEq

namespace Pattern

def one (p : Char → Bool) : Language Char := {w | ∃ c, p c ∧ w = [c]}

/-- The body of a literal that the quote `q` closes: characters other than the quote and the
backslash, and any character after a backslash. -/
def body (q : Char) (multiline : Bool) : Language Char :=
  (one (fun c => c != q && c != '\\' && (multiline || c != '\n')) +
    one (· == '\\') * one fun _ => true)∗

def quotedBy (q : Char) (multiline : Bool) : Language Char :=
  one (· == q) * body q multiline * one (· == q)

/-- Stars before something that neither goes on with them nor closes the comment. -/
def starred : Language Char :=
  one (· == '*') * (one (· == '*'))∗ * one fun c => c != '*' && c != '/'

def commentBody : Language Char := (one (· != '*') + starred)∗

def commentTail : Language Char :=
  commentBody * (one (· == '*') * (one (· == '*'))∗) * one (· == '/')

def fraction : Language Char :=
  one (· == '.') * (one isDigitPart * (one isDigitPart)∗)

def exponent : Language Char :=
  one (fun c => c == 'e' || c == 'E') * ((1 + one fun c => c == '+' || c == '-') *
    (one Char.isDigit * (one Char.isDigit)∗))

def language : Pattern → Language Char
  | skipped => one isSkipped * (one isSkipped)∗
  | lineComment => one (· == '/') * (one (· == '/') * (one (· != '\n'))∗)
  | blockComment => one (· == '/') * (one (· == '*') * commentTail)
  | keyword word => {word.text.toList}
  | punctuation mark => {mark.text.toList}
  | doubleQuoted => quotedBy '"' false
  | singleQuoted => quotedBy '\'' false
  | template => quotedBy '\x60' true
  | number => one Char.isDigit * ((one isDigitPart)∗ * ((1 + fraction) * (1 + exponent)))
  | identifier => one isNameStart * (one isNamePart)∗
  | other => one fun c => !Text.isBlank c

/-- Of two patterns that match the same text the one of higher rank counts. -/
def rank : Pattern → Nat
  | other => 0
  | identifier => 1
  | _ => 2

def kind : Pattern → List Char → LexemeKind
  | skipped, _ => .skipped
  | lineComment, _ => .comment
  | blockComment, _ => .comment
  | keyword word, _ => .token (.keyword word)
  | punctuation mark, _ => .token (.punctuation mark)
  | doubleQuoted, w => .token (.string (String.ofList (Token.literalValue w.tail.dropLast)))
  | singleQuoted, w => .token (.string (String.ofList (Token.literalValue w.tail.dropLast)))
  | template, _ => .token .template
  | number, _ => .token .number
  | identifier, w => .token (.identifier (String.ofList w))
  | other, w => .token (.other (w.headD ' '))

variable {p : Char → Bool} {w v : List Char} {l : Language Char}

theorem mem_one : w ∈ one p ↔ ∃ c, p c ∧ w = [c] := Iff.rfl

theorem mem_one_mul : w ∈ one p * l ↔ ∃ c v, p c ∧ v ∈ l ∧ w = c :: v := by
  rw [Language.mem_mul]
  constructor
  · rintro ⟨_, ⟨c, hc, rfl⟩, v, hv, rfl⟩
    exact ⟨c, v, hc, hv, rfl⟩
  · rintro ⟨c, v, hc, hv, rfl⟩
    exact ⟨[c], ⟨c, hc, rfl⟩, v, hv, rfl⟩

theorem mem_mul_one : w ∈ l * one p ↔ ∃ v c, v ∈ l ∧ p c ∧ w = v ++ [c] := by
  rw [Language.mem_mul]
  constructor
  · rintro ⟨v, hv, _, ⟨c, hc, rfl⟩, rfl⟩
    exact ⟨v, c, hv, hc, rfl⟩
  · rintro ⟨v, c, hv, hc, rfl⟩
    exact ⟨v, hv, [c], ⟨c, hc, rfl⟩, rfl⟩

theorem mem_kstar_iff : w ∈ l∗ ↔ w = [] ∨ ∃ u ∈ l, ∃ v ∈ l∗, u ++ v = w := by
  rw [← Language.one_add_self_mul_kstar_eq_kstar l, Language.mem_add, Language.mem_one,
    Language.mem_mul, Language.one_add_self_mul_kstar_eq_kstar]

theorem kstar_induction {P : List Char → Prop} (h : w ∈ l∗) (nil : P [])
    (append : ∀ u ∈ l, ∀ v, P v → P (u ++ v)) : P w := by
  obtain ⟨us, rfl, hus⟩ := Language.mem_kstar.1 h
  clear h
  induction us with
  | nil => exact nil
  | cons u us ih =>
    rw [List.flatten_cons]
    exact append u (hus u (by simp)) _ (ih fun y hy => hus y (by simp [hy]))

theorem append_mem_kstar (hw : w ∈ l) (hv : v ∈ l∗) : w ++ v ∈ l∗ :=
  mem_kstar_iff.2 (.inr ⟨w, hw, v, hv, rfl⟩)

theorem mem_kstar_one : w ∈ (one p)∗ ↔ ∀ c ∈ w, p c := by
  constructor
  · intro h
    refine kstar_induction (P := fun w => ∀ c ∈ w, p c) h (by simp) ?_
    rintro _ ⟨c, hc, rfl⟩ v ih
    simpa [hc] using ih
  · intro h
    induction w with
    | nil => exact Language.nil_mem_kstar _
    | cons c w ih =>
      have hc : [c] ∈ one p := ⟨c, h c (by simp), rfl⟩
      exact append_mem_kstar hc (ih fun d hd => h d (by simp [hd]))

theorem mem_run : w ∈ one p * (one p)∗ ↔ w ≠ [] ∧ ∀ c ∈ w, p c := by
  rw [mem_one_mul]
  constructor
  · rintro ⟨c, v, hc, hv, rfl⟩
    simpa [hc] using mem_kstar_one.1 hv
  · rintro ⟨hw, hall⟩
    cases w with
    | nil => exact absurd rfl hw
    | cons c w => exact ⟨c, w, hall c (by simp), mem_kstar_one.2 fun d hd => hall d (by simp [hd]), rfl⟩

theorem mem_one_add : w ∈ 1 + l ↔ w = [] ∨ w ∈ l := by
  rw [Language.mem_add, Language.mem_one]

end Pattern

end PathAudit
