import PathAudit.Proofs.Token.Cutting

/-! What a text is cut into. The pieces cover it from end to end, a comment ends where it is closed
first, and the white space that no pattern has is left over one character at a time, unless a
string, a template or a comment holds it. -/

namespace PathAudit

open Computability Lexeme

/-- What the text of a lexeme looks like in front of the text that follows it. -/
inductive Shape : LexemeKind → List Char → List Char → Prop
  | skipped {w r} : w ≠ [] → (∀ c ∈ w, isSkipped c) → (∀ c t, r = c :: t → ¬isSkipped c) →
      Shape .skipped w r
  | lineComment {b r} : (∀ c ∈ b, c ≠ '\n') → (∀ c t, r = c :: t → c = '\n') →
      Shape .comment ('/' :: '/' :: b) r
  | blockComment {b r} : ¬ ['*', '/'] <:+: b ++ ['*'] →
      Shape .comment ('/' :: '*' :: (b ++ ['*', '/'])) r
  | token {t w r} : w ≠ [] → Shape (.token t) w r
  | unknown {c r} : Text.isBlank c → ¬isSkipped c → Shape .unknown [c] r

def Shaped : List Lexeme → Prop
  | [] => True
  | l :: ls => Shape l.kind l.text (ls.flatMap text) ∧ Shaped ls

/-- Strings, templates and comments hold white space of any sort. -/
def LexemeKind.encloses : LexemeKind → Bool
  | .comment => true
  | .token (.string _) => true
  | .token .template => true
  | _ => false

def Lexeme.isStray (c : Char) : Bool :=
  Text.isBlank c && !isSkipped c

variable {c : Char} {w r s b : List Char} {n : Nat} {p : Pattern} {l : Lexeme} {ls : List Lexeme}

theorem Cut.flatMap_text (h : Cut s ls) : ls.flatMap text = s := by
  rw [eq_ofText_of_cut h, flatMap_text_ofText]

theorem Shape.ne_nil {k : LexemeKind} (h : Shape k w r) : w ≠ [] := by
  cases h with
  | skipped h => exact h
  | lineComment => exact List.cons_ne_nil _ _
  | blockComment => exact List.cons_ne_nil _ _
  | token h => exact h
  | unknown => exact List.cons_ne_nil _ _

theorem Shape.of_unknown (h : Shape .unknown w r) : ∃ c, isStray c ∧ w = [c] := by
  cases h with
  | @unknown c r hb hs => exact ⟨c, by simp [isStray, hb, hs], rfl⟩

namespace Pattern

theorem commentClosing_le (b r : List Char) :
    ∃ n ≤ b.length + 2, commentClosing (b ++ '*' :: '/' :: r) = some n := by
  induction b with
  | nil => exact ⟨2, Nat.le_refl 2, rfl⟩
  | cons c b ih =>
    obtain ⟨n, hn, h⟩ := ih
    by_cases hc : c = '*' ∧ ∃ t, b ++ '*' :: '/' :: r = '/' :: t
    · obtain ⟨rfl, t, ht⟩ := hc
      exact ⟨2, by omega, by rw [List.cons_append, ht, commentClosing]⟩
    · refine ⟨n + 1, by simpa using hn, ?_⟩
      rw [List.cons_append, commentClosing, h]
      · rfl
      · intro t h1 h2
        exact hc ⟨h1, t, h2⟩

theorem eq_append_of_mem_commentTail (h : w ∈ commentTail) : ∃ b, w = b ++ ['*', '/'] := by
  obtain ⟨b, -, s, hs, rfl⟩ := mem_commentTail.1 h
  have hstar : ∃ s', '*' :: s = s' ++ ['*'] := by
    refine ⟨('*' :: s).dropLast, ?_⟩
    conv_lhs => rw [← List.dropLast_append_getLast (List.cons_ne_nil '*' s)]
    congr 2
    rcases List.mem_cons.1 (List.getLast_mem (List.cons_ne_nil '*' s)) with h | h
    · exact h
    · exact hs _ h
  obtain ⟨s', hs'⟩ := hstar
  exact ⟨b ++ s', by rw [hs']; simp⟩

/-- A block comment holds no `*/` before its end. -/
theorem not_infix_of_mem_commentTail (h : b ++ ['*', '/'] ∈ commentTail) :
    ¬ ['*', '/'] <:+: b ++ ['*'] := by
  rintro ⟨x, y, hxy⟩
  obtain ⟨n, hn, hclose⟩ := commentClosing_le x (y ++ ['/'])
  have hsame : x ++ '*' :: '/' :: (y ++ ['/']) = b ++ ['*', '/'] := by
    have := congrArg (· ++ ['/']) hxy
    simpa using this
  have hfull := commentClosing_tail (r := []) h
  rw [List.append_nil, ← hsame, hclose] at hfull
  have hlen := congrArg List.length hxy
  cases hfull
  simp only [List.length_append, List.length_cons, List.length_nil] at hlen hn
  omega

theorem shape_of_munch (h : Munch (w ++ r) p w) : Shape (p.kind w) w r := by
  have hmem := h.mem
  have hne : w ≠ [] := by
    obtain ⟨c, t, rfl, -⟩ := lead_of_mem hmem
    exact List.cons_ne_nil c t
  -- nothing longer matches, so the next character does not go on with the piece
  have hstop : ∀ c t, r = c :: t → w ++ [c] ∉ p.language := by
    rintro c t rfl hc
    have := h.longest p _ (by simp) hc
    simp only [List.length_append, List.length_singleton] at this
    omega
  cases p with
  | skipped =>
    have hw := (mem_run.1 hmem).2
    refine .skipped hne hw fun c t hr hc => hstop c t hr (mem_run.2 ⟨by simp, ?_⟩)
    exact List.forall_mem_append.2 ⟨hw, List.forall_mem_singleton.2 hc⟩
  | lineComment =>
    obtain ⟨c, t, rfl, -⟩ := lead_of_mem hmem
    obtain ⟨rfl, b, rfl, hb⟩ := mem_lineComment.1 hmem
    refine .lineComment hb fun c t hr => by_contra fun hc => hstop c t hr ?_
    refine mem_lineComment.2 ⟨rfl, b ++ [c], rfl, ?_⟩
    exact List.forall_mem_append.2 ⟨hb, List.forall_mem_singleton.2 hc⟩
  | blockComment =>
    obtain ⟨c, t, rfl, -⟩ := lead_of_mem hmem
    obtain ⟨rfl, t, ht, rfl⟩ := mem_blockComment.1 hmem
    obtain ⟨b, rfl⟩ := eq_append_of_mem_commentTail ht
    exact .blockComment (not_infix_of_mem_commentTail ht)
  | _ => exact .token hne

theorem not_isBlank_of_range (h : 33 ≤ c.toNat) (h' : c.toNat ≤ 126) : ¬Text.isBlank c := by
  intro hb
  have := isBlank_ascii hb
  omega

theorem not_isBlank_of_digit (h : c.isDigit) : ¬Text.isBlank c := by
  have := isDigit_iff.1 h
  exact not_isBlank_of_range (by omega) (by omega)

theorem not_isBlank_of_name (h : isNamePart c) : ¬Text.isBlank c := by
  rcases Bool.or_eq_true_iff.1 h with h | h
  · have := isNameStart_iff.1 h
    exact not_isBlank_of_range (by omega) (by omega)
  · exact not_isBlank_of_digit h

theorem not_isBlank_of_digitPart (h : isDigitPart c) : ¬Text.isBlank c := by
  rcases Bool.or_eq_true_iff.1 h with h | h
  · exact not_isBlank_of_digit h
  · cases beq_iff_eq.1 h
    decide

theorem not_isBlank_of_fraction (h : w ∈ 1 + fraction) : ∀ c ∈ w, ¬Text.isBlank c := by
  rcases mem_one_add.1 h with rfl | h
  · simp
  · obtain ⟨f, -, hf, rfl⟩ := mem_fraction.1 h
    intro c hc
    rcases List.mem_cons.1 hc with rfl | hc
    · decide
    · exact not_isBlank_of_digitPart (hf c hc)

theorem not_isBlank_of_exponent (h : w ∈ 1 + exponent) : ∀ c ∈ w, ¬Text.isBlank c := by
  rcases mem_one_add.1 h with rfl | h
  · simp
  · obtain ⟨e, g, ds, he, hg, -, hds, rfl⟩ := mem_exponent.1 h
    intro c hc
    rcases List.mem_cons.1 hc with rfl | hc
    · rcases he with rfl | rfl <;> decide
    rcases List.mem_append.1 hc with hc | hc
    · rcases hg with rfl | rfl | rfl
      · cases hc
      · cases List.mem_singleton.1 hc
        decide
      · cases List.mem_singleton.1 hc
        decide
    · exact not_isBlank_of_digit (hds c hc)

/-- Only separators, strings, templates and comments have white space in them. -/
theorem not_isBlank_of_mem (hw : w ∈ p.language) (hp : p ≠ .skipped)
    (h : (p.kind w).encloses = false) (hc : c ∈ w) : ¬Text.isBlank c := by
  cases p with
  | skipped => exact absurd rfl hp
  | lineComment | blockComment | doubleQuoted | singleQuoted | template => cases h
  | keyword k =>
    have hk : k.text.toList.all (!Text.isBlank ·) := by cases k <;> decide
    simpa using List.all_eq_true.1 hk c (hw ▸ hc)
  | punctuation m =>
    have hm : m.text.toList.all (!Text.isBlank ·) := by cases m <;> decide
    simpa using List.all_eq_true.1 hm c (hw ▸ hc)
  | number =>
    obtain ⟨d, s, v, u, hd, hs, hv, hu, rfl⟩ := mem_number.1 hw
    rcases List.mem_cons.1 hc with rfl | hc
    · exact not_isBlank_of_digit hd
    rcases List.mem_append.1 hc with hc | hc
    · exact not_isBlank_of_digitPart (hs c hc)
    rcases List.mem_append.1 hc with hc | hc
    · exact not_isBlank_of_fraction hv c hc
    · exact not_isBlank_of_exponent hu c hc
  | identifier =>
    obtain ⟨d, t, rfl, -⟩ := lead_of_mem hw
    obtain ⟨hd, ht⟩ := mem_identifier.1 hw
    rcases List.mem_cons.1 hc with rfl | hc
    · exact not_isBlank_of_name (by simp [isNamePart, hd])
    · exact not_isBlank_of_name (ht c hc)
  | other =>
    obtain ⟨d, hd, rfl⟩ := hw
    cases List.mem_singleton.1 hc
    simpa using hd

theorem not_isStray (hw : w ∈ p.language) (h : (p.kind w).encloses = false) (hc : c ∈ w) :
    ¬isStray c := by
  intro hs
  obtain ⟨hblank, hkept⟩ := Bool.and_eq_true_iff.1 hs
  by_cases hp : p = .skipped
  · subst hp
    have := (mem_run.1 hw).2 c hc
    simp [this] at hkept
  · exact not_isBlank_of_mem hw hp h hc hblank

end Pattern

open Pattern

theorem shaped_of_cut (h : Cut s ls) : Shaped ls := by
  induction h with
  | nil => exact trivial
  | piece hp hr ih => exact ⟨hr.flatMap_text ▸ shape_of_munch hp, ih⟩
  | @stray c r ls hno hr ih =>
    refine ⟨?_, ih⟩
    rcases munch_classify c r with ⟨q, hq, -⟩ | ⟨-, hb, hs, -⟩
    · exact absurd hq.mem (hno q _ hq.isPrefix)
    · exact .unknown hb hs

theorem Shaped.of_mem (h : Shaped ls) (hl : l ∈ ls) : ∃ r, Shape l.kind l.text r := by
  induction ls with
  | nil => cases hl
  | cons m ls ih =>
    rcases List.mem_cons.1 hl with rfl | hl
    · exact ⟨_, h.1⟩
    · exact ih h.2 hl

/-- A lexeme with stray white space in it is left over, or holds white space of any sort. -/
theorem unknown_or_encloses (h : Cut s ls) (hl : l ∈ ls) (hc : c ∈ l.text) (hs : isStray c) :
    l.kind = .unknown ∨ l.kind.encloses := by
  induction h with
  | nil => cases hl
  | @piece p w r ls hp _ ih =>
    rcases List.mem_cons.1 hl with rfl | hl
    · right
      by_contra hk
      exact not_isStray hp.mem (Bool.eq_false_iff.2 hk) hc hs
    · exact ih hl
  | stray _ _ ih =>
    rcases List.mem_cons.1 hl with rfl | hl
    · exact .inl rfl
    · exact ih hl

end PathAudit
