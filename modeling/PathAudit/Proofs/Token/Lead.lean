import PathAudit.Proofs.Token.Delimited
import PathAudit.Proofs.Token.Number

/-! How patterns begin. The first character of a text leaves few patterns to compare: those that
begin alike are a keyword and a name, the two comments, and the equals sign and the arrow. -/

namespace PathAudit

open Computability Lexeme

/-- How a text begins, as far as it tells patterns apart. -/
inductive Lead
  | space
  | digit
  | letter
  | mark (c : Char)
deriving DecidableEq

def Lead.ofChar (c : Char) : Lead :=
  if isSkipped c then .space
  else if c.isDigit then .digit
  else if isNameStart c then .letter
  else .mark c

def Punctuation.first (mark : Punctuation) : Char := mark.text.toList.headD ' '

namespace Pattern

def lead : Pattern → Option Lead
  | skipped => some .space
  | lineComment => some (.mark '/')
  | blockComment => some (.mark '/')
  | keyword _ => some .letter
  | punctuation mark => some (.mark mark.first)
  | doubleQuoted => some (.mark '"')
  | singleQuoted => some (.mark '\'')
  | template => some (.mark '\x60')
  | number => some .digit
  | identifier => some .letter
  | other => none

/-- The pattern `p` has the text `w` at the beginning of `s`, no pattern has a longer text there,
and none that counts more has this one. -/
structure Munch (s : List Char) (p : Pattern) (w : List Char) : Prop where
  isPrefix : w <+: s
  mem : w ∈ p.language
  longest : ∀ q v, v <+: s → v ∈ language q → v.length ≤ w.length
  strongest : ∀ q, w ∈ language q → q.rank ≤ p.rank

variable {c : Char} {w r s : List Char} {n : Nat} {p q : Pattern}

theorem isSkipped_iff : isSkipped c ↔ c.toNat = 32 ∨ c.toNat = 9 ∨ c.toNat = 13 ∨ c.toNat = 10 ∨
    c.toNat = 12 ∨ c.toNat = 0xfeff := by
  simp only [isSkipped, Bool.or_eq_true, beq_iff_eq, ← Char.toNat_inj, or_assoc]
  rfl

theorem isDigit_iff : c.isDigit ↔ 48 ≤ c.toNat ∧ c.toNat ≤ 57 := by
  simp [Char.isDigit, UInt32.le_iff_toNat_le]

theorem isNameStart_iff : isNameStart c ↔ (65 ≤ c.toNat ∧ c.toNat ≤ 90) ∨
    (97 ≤ c.toNat ∧ c.toNat ≤ 122) ∨ c.toNat = 95 ∨ c.toNat = 36 := by
  have h1 : c = '_' ↔ c.toNat = 95 := by rw [← Char.toNat_inj]; rfl
  have h2 : c = '$' ↔ c.toNat = 36 := by rw [← Char.toNat_inj]; rfl
  have halpha : c.isAlpha = (decide (65 ≤ c.val ∧ c.val ≤ 90) || (97 ≤ c.val && c.val ≤ 122)) := rfl
  simp [isNameStart, halpha, UInt32.le_iff_toNat_le, h1, h2, or_assoc]

/-- White space is no digit and begins no name, as far as ASCII goes. -/
theorem isBlank_ascii (h : Text.isBlank c) :
    (9 ≤ c.toNat ∧ c.toNat ≤ 13) ∨ c.toNat = 32 ∨ 133 ≤ c.toNat := by
  simp only [Text.isBlank, Bool.or_eq_true, Bool.and_eq_true, decide_eq_true_eq, beq_iff_eq] at h
  omega

theorem ofChar_space (h : isSkipped c) : Lead.ofChar c = .space := by
  rw [Lead.ofChar, if_pos h]

theorem ofChar_digit (h : c.isDigit) : Lead.ofChar c = .digit := by
  rw [Lead.ofChar, if_neg, if_pos h]
  intro hs
  have := isSkipped_iff.1 hs
  have := isDigit_iff.1 h
  omega

theorem ofChar_letter (h : isNameStart c) : Lead.ofChar c = .letter := by
  have hc := isNameStart_iff.1 h
  rw [Lead.ofChar, if_neg, if_neg, if_pos h]
  · intro hd
    have := isDigit_iff.1 hd
    omega
  · intro hs
    have := isSkipped_iff.1 hs
    omega

theorem lead_of_mem (h : w ∈ p.language) :
    ∃ c t, w = c :: t ∧ ∀ l, p.lead = some l → l = Lead.ofChar c := by
  cases p with
  | skipped =>
    obtain ⟨c, t, hc, -, rfl⟩ := mem_one_mul.1 h
    exact ⟨c, t, rfl, by simp [lead, ofChar_space hc]⟩
  | lineComment | blockComment =>
    obtain ⟨c, t, hc, -, rfl⟩ := mem_one_mul.1 h
    cases beq_iff_eq.1 hc
    exact ⟨_, t, rfl, by rintro l ⟨⟩; rfl⟩
  | keyword k =>
    cases h
    cases k <;> exact ⟨_, _, rfl, by rintro l ⟨⟩; rfl⟩
  | punctuation m =>
    cases h
    cases m <;> exact ⟨_, _, rfl, by rintro l ⟨⟩; rfl⟩
  | doubleQuoted | singleQuoted | template =>
    obtain ⟨v, -, rfl⟩ := mem_quotedBy.1 h
    exact ⟨_, _, rfl, by rintro l ⟨⟩; rfl⟩
  | number =>
    obtain ⟨c, t, hc, -, rfl⟩ := mem_one_mul.1 h
    exact ⟨c, t, rfl, by simp [lead, ofChar_digit hc]⟩
  | identifier =>
    obtain ⟨c, t, hc, -, rfl⟩ := mem_one_mul.1 h
    exact ⟨c, t, rfl, by simp [lead, ofChar_letter hc]⟩
  | other =>
    obtain ⟨c, -, rfl⟩ := h
    exact ⟨c, [], rfl, by simp [lead]⟩

/-- The longest match is found among the patterns that begin as the text does. -/
theorem Munch.of_lead (hw : c :: r.take n ∈ p.language)
    (h : ∀ q v, q.lead = some (Lead.ofChar c) → c :: v ∈ language q → v <+: r →
      v.length ≤ n ∧ (v = r.take n → q.rank ≤ p.rank)) :
    Munch (c :: r) p (c :: r.take n) := by
  have hcases : ∀ q v, v <+: c :: r → v ∈ language q →
      v.length ≤ (c :: r.take n).length ∧ (v = c :: r.take n → q.rank ≤ p.rank) := by
    intro q v hv hq
    obtain ⟨d, t, rfl, hlead⟩ := lead_of_mem hq
    obtain ⟨rfl, ht⟩ := List.cons_prefix_cons.1 hv
    cases hl : q.lead with
    | none =>
      -- only the pattern of the remaining characters begins anyhow
      cases q with
      | other =>
        obtain ⟨e, -, he⟩ := hq
        cases he
        exact ⟨by simp, fun _ => Nat.zero_le _⟩
      | _ => cases hl
    | some l =>
      have := h q t (by rw [hl, hlead l hl]) hq ht
      refine ⟨?_, fun he => this.2 (List.cons.inj he).2⟩
      have hlen := ht.length_le
      simp only [List.length_cons, List.length_take]
      omega
  refine ⟨?_, hw, ?_, ?_⟩
  · exact List.cons_prefix_cons.2 ⟨rfl, List.take_prefix _ _⟩
  · exact fun q v hv hq => (hcases q v hv hq).1
  · intro q hq
    exact (hcases q _ (List.cons_prefix_cons.2 ⟨rfl, List.take_prefix _ _⟩) hq).2 rfl

theorem eq_of_lead_space (h : p.lead = some .space) : p = .skipped := by
  cases p <;> simp_all [lead]

theorem eq_of_lead_digit (h : p.lead = some .digit) : p = .number := by
  cases p <;> simp_all [lead]

theorem eq_of_lead_letter (h : p.lead = some .letter) : p = .identifier ∨ ∃ k, p = .keyword k := by
  cases p <;> simp_all [lead]

theorem eq_of_lead_mark (h : p.lead = some (.mark c)) :
    (c = '/' ∧ (p = .lineComment ∨ p = .blockComment)) ∨ (c = '"' ∧ p = .doubleQuoted) ∨
    (c = '\'' ∧ p = .singleQuoted) ∨ (c = '\x60' ∧ p = .template) ∨
    ∃ m, p = .punctuation m ∧ m.first = c := by
  cases p <;> simp_all [lead, eq_comm]

theorem first_ne (m : Punctuation) : m.first ≠ '/' ∧ m.first ≠ '"' ∧ m.first ≠ '\'' ∧
    m.first ≠ '\x60' := by
  cases m <;> decide

theorem eq_of_lead_of_first_ne (h : q.lead = some (.mark c)) (hc : ∀ m : Punctuation, m.first ≠ c) :
    (c = '/' ∧ (q = .lineComment ∨ q = .blockComment)) ∨ (c = '"' ∧ q = .doubleQuoted) ∨
    (c = '\'' ∧ q = .singleQuoted) ∨ (c = '\x60' ∧ q = .template) := by
  rcases eq_of_lead_mark h with h | h | h | h | ⟨m, -, hm⟩
  · exact .inl h
  · exact .inr (.inl h)
  · exact .inr (.inr (.inl h))
  · exact .inr (.inr (.inr h))
  · exact absurd hm (hc m)

theorem eq_of_lead_doubleQuote (h : q.lead = some (.mark '"')) : q = .doubleQuoted := by
  simpa using eq_of_lead_of_first_ne h fun m => (first_ne m).2.1

theorem eq_of_lead_singleQuote (h : q.lead = some (.mark '\'')) : q = .singleQuoted := by
  simpa using eq_of_lead_of_first_ne h fun m => (first_ne m).2.2.1

theorem eq_of_lead_backtick (h : q.lead = some (.mark '\x60')) : q = .template := by
  simpa using eq_of_lead_of_first_ne h fun m => (first_ne m).2.2.2

theorem eq_of_lead_slash (h : q.lead = some (.mark '/')) : q = .lineComment ∨ q = .blockComment := by
  simpa using eq_of_lead_of_first_ne h fun m => (first_ne m).1

end Pattern

end PathAudit
