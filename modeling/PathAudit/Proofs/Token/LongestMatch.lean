import PathAudit.Proofs.Token.Lead

/-! The longest match. At each place the reader takes the longest text that any pattern has there,
and of the patterns with that text the one that counts most. -/

namespace PathAudit

open Computability Lexeme

namespace Pattern

variable {c d : Char} {w v r : List Char} {n : Nat} {p q : Pattern}

theorem length_le_takeWhile {f : Char → Bool} (hv : ∀ d ∈ v, f d) (h : v <+: r) :
    v.length ≤ (r.takeWhile f).length := by
  obtain ⟨t, rfl⟩ := h
  rw [takeWhile_run hv]
  omega

theorem munch_skipped (h : isSkipped c) :
    Munch (c :: r) .skipped (c :: r.take (r.takeWhile isSkipped).length) := by
  refine Munch.of_lead ?_ ?_
  · rw [take_length_takeWhile]
    refine mem_run.2 ⟨by simp, ?_⟩
    rintro d (_ | ⟨_, hd⟩)
    · exact h
    · exact List.mem_takeWhile_imp hd
  · intro q v hq hv hr
    rw [ofChar_space h] at hq
    cases eq_of_lead_space hq
    have hall := (mem_run.1 hv).2
    exact ⟨length_le_takeWhile (fun d hd => hall d (by simp [hd])) hr, fun _ => Nat.le_refl _⟩

theorem munch_number (h : c.isDigit) :
    Munch (c :: r) .number (c :: r.take (numberLength r)) := by
  refine Munch.of_lead (take_numberLength h) ?_
  intro q v hq hv hr
  rw [ofChar_digit h] at hq
  cases eq_of_lead_digit hq
  obtain ⟨d, s, f, u, -, hs, hf, hu, he⟩ := mem_number.1 hv
  obtain ⟨-, rfl⟩ := List.cons.inj he
  obtain ⟨t, rfl⟩ := hr
  exact ⟨number_le hs hf hu, fun _ => Nat.le_refl _⟩

theorem mem_identifier : c :: v ∈ language identifier ↔ isNameStart c ∧ ∀ d ∈ v, isNamePart d := by
  rw [language, mem_one_mul]
  constructor
  · rintro ⟨d, t, hd, ht, he⟩
    cases he
    exact ⟨hd, mem_kstar_one.1 ht⟩
  · rintro ⟨hc, hv⟩
    exact ⟨c, v, hc, mem_kstar_one.2 hv, rfl⟩

theorem mem_identifier_of_keyword {k : Keyword} (h : w ∈ language (.keyword k)) :
    w ∈ language identifier := by
  cases h
  cases k <;> exact mem_identifier.2 ⟨by decide, List.all_eq_true.1 (by decide)⟩

theorem text_eq_of_ofText? {word : String} {k : Keyword} (h : Keyword.ofText? word = some k) :
    k.text = word := by
  unfold Keyword.ofText? at h
  split at h <;> cases h <;> rfl

theorem ofText?_text (k : Keyword) : Keyword.ofText? k.text = some k := by
  cases k <;> decide

/-- The pattern that counts most for a name. -/
def ofWord (w : List Char) : Pattern :=
  match Keyword.ofText? (String.ofList w) with
  | some k => .keyword k
  | none => .identifier

theorem kind_ofWord (w : List Char) :
    (ofWord w).kind w = .token (Lexeme.ofWord (String.ofList w)) := by
  unfold ofWord Lexeme.ofWord
  cases Keyword.ofText? (String.ofList w) <;> rfl

theorem munch_word (h : isNameStart c) :
    Munch (c :: r) (ofWord (c :: r.takeWhile isNamePart))
      (c :: r.take (r.takeWhile isNamePart).length) := by
  have hname : c :: r.takeWhile isNamePart ∈ language identifier :=
    mem_identifier.2 ⟨h, fun d hd => List.mem_takeWhile_imp hd⟩
  refine Munch.of_lead ?_ ?_
  · rw [take_length_takeWhile]
    unfold ofWord
    split
    · next k hk =>
      have := text_eq_of_ofText? hk
      show _ = k.text.toList
      simp [this]
    · exact hname
  · intro q v hq hv hr
    rw [ofChar_letter h] at hq
    have hv' : c :: v ∈ language identifier := by
      rcases eq_of_lead_letter hq with rfl | ⟨k, rfl⟩
      · exact hv
      · exact mem_identifier_of_keyword hv
    refine ⟨length_le_takeWhile (mem_identifier.1 hv').2 hr, ?_⟩
    intro he
    rw [take_length_takeWhile] at he
    subst he
    rcases eq_of_lead_letter hq with rfl | ⟨k, rfl⟩
    · unfold ofWord
      split
      · exact Nat.le_succ 1
      · exact Nat.le_refl 1
    · have hk : String.ofList (c :: r.takeWhile isNamePart) = k.text := by
        rw [show c :: r.takeWhile isNamePart = k.text.toList from hv, String.ofList_toList]
      rw [ofWord, hk, ofText?_text]

/-- A quoted literal is the only match at its place: where the body ends is decided by the first
quote that no backslash takes. -/
theorem munch_quotedBy {multiline : Bool} (hc : c ≠ '\\') (hlang : p.language = quotedBy c multiline)
    (hlead : ∀ q, q.lead = some (Lead.ofChar c) → q = p) (h : closing c multiline r = some n) :
    Munch (c :: r) p (c :: r.take n) := by
  refine Munch.of_lead ?_ ?_
  · obtain ⟨w, rest, rfl, hw, rfl⟩ := (closing_eq_some_iff hc).1 h
    rw [hlang, mem_quotedBy]
    exact ⟨w, hw, by simp [List.take_append]⟩
  · intro q v hq hv hr
    cases hlead q hq
    rw [hlang, mem_quotedBy] at hv
    obtain ⟨w, hw, he⟩ := hv
    obtain ⟨-, rfl⟩ := List.cons.inj he
    obtain ⟨t, rfl⟩ := hr
    rw [List.append_assoc, List.singleton_append, closing_body hc hw] at h
    cases h
    exact ⟨by simp, fun _ => Nat.le_refl _⟩

theorem dropLast_take_of_closing {multiline : Bool} (h : closing c multiline r = some n) :
    (r.take n).dropLast = r.take (n - 1) := by
  obtain ⟨w, rest, rfl, -, rfl⟩ := body_of_closing h
  simp [List.take_append]

theorem not_mem_quotedBy {multiline : Bool} (hc : c ≠ '\\') (h : closing c multiline r = none)
    (hv : v <+: r) : c :: v ∉ quotedBy c multiline := by
  intro hm
  obtain ⟨w, hw, he⟩ := mem_quotedBy.1 hm
  obtain ⟨-, rfl⟩ := List.cons.inj he
  obtain ⟨t, rfl⟩ := hv
  rw [List.append_assoc, List.singleton_append, closing_body hc hw] at h
  cases h

theorem mem_lineComment : c :: v ∈ language lineComment ↔
    c = '/' ∧ ∃ b, v = '/' :: b ∧ ∀ d ∈ b, d ≠ '\n' := by
  rw [language, mem_one_mul]
  constructor
  · rintro ⟨d, t, hd, ht, he⟩
    cases he
    obtain ⟨e, b, he, hb, rfl⟩ := mem_one_mul.1 ht
    cases beq_iff_eq.1 hd
    cases beq_iff_eq.1 he
    exact ⟨rfl, b, rfl, by simpa using mem_kstar_one.1 hb⟩
  · rintro ⟨rfl, b, rfl, hb⟩
    exact ⟨'/', _, rfl, mem_one_mul.2 ⟨'/', b, rfl, mem_kstar_one.2 (by simpa using hb), rfl⟩, rfl⟩

theorem mem_blockComment : c :: v ∈ language blockComment ↔
    c = '/' ∧ ∃ t ∈ commentTail, v = '*' :: t := by
  rw [language, mem_one_mul]
  constructor
  · rintro ⟨d, t, hd, ht, he⟩
    cases he
    obtain ⟨e, b, he, hb, rfl⟩ := mem_one_mul.1 ht
    cases beq_iff_eq.1 hd
    cases beq_iff_eq.1 he
    exact ⟨rfl, b, hb, rfl⟩
  · rintro ⟨rfl, b, hb, rfl⟩
    exact ⟨'/', _, rfl, mem_one_mul.2 ⟨'*', b, rfl, hb, rfl⟩, rfl⟩

theorem munch_lineComment : Munch ('/' :: '/' :: r) .lineComment
    ('/' :: ('/' :: r).take (1 + (r.takeWhile (· != '\n')).length)) := by
  refine Munch.of_lead ?_ ?_
  · rw [Nat.add_comm, List.take_succ_cons, take_length_takeWhile]
    refine mem_lineComment.2 ⟨rfl, _, rfl, ?_⟩
    intro d hd
    simpa using List.mem_takeWhile_imp hd
  · intro q v hq hv hr
    rcases eq_of_lead_slash hq with rfl | rfl
    · obtain ⟨-, b, rfl, hb⟩ := mem_lineComment.1 hv
      have := length_le_takeWhile (f := (· != '\n')) (by simpa using hb) (List.cons_prefix_cons.1 hr).2
      exact ⟨by simp only [List.length_cons]; omega, fun _ => Nat.le_refl _⟩
    · obtain ⟨-, t, -, rfl⟩ := mem_blockComment.1 hv
      exact absurd (List.cons_prefix_cons.1 hr).1 (by decide)

theorem munch_blockComment (h : commentClosing r = some n) : Munch ('/' :: '*' :: r) .blockComment
    ('/' :: ('*' :: r).take (1 + n)) := by
  refine Munch.of_lead ?_ ?_
  · obtain ⟨w, rest, rfl, hw, rfl⟩ := commentClosing_eq_some_iff.1 h
    rw [Nat.add_comm, List.take_succ_cons, List.take_left]
    exact mem_blockComment.2 ⟨rfl, w, hw, rfl⟩
  · intro q v hq hv hr
    rcases eq_of_lead_slash hq with rfl | rfl
    · obtain ⟨-, b, rfl, -⟩ := mem_lineComment.1 hv
      exact absurd (List.cons_prefix_cons.1 hr).1 (by decide)
    · obtain ⟨-, t, ht, rfl⟩ := mem_blockComment.1 hv
      obtain ⟨rest, rfl⟩ := (List.cons_prefix_cons.1 hr).2
      rw [commentClosing_tail ht] at h
      cases h
      exact ⟨by simp only [List.length_cons]; omega, fun _ => Nat.le_refl _⟩

theorem ofChar_mark (h1 : ¬isSkipped c) (h2 : ¬c.isDigit) (h3 : ¬isNameStart c) :
    Lead.ofChar c = .mark c := by
  rw [Lead.ofChar, if_neg h1, if_neg h2, if_neg h3]

theorem text_of_ofChar? {m : Punctuation} (h : Punctuation.ofChar? c = some m) :
    m.text.toList = [c] := by
  unfold Punctuation.ofChar? at h
  split at h <;> cases h <;> rfl

theorem ofChar?_first {m : Punctuation} (h : m ≠ .arrow) : Punctuation.ofChar? m.first = some m := by
  cases m with
  | arrow => exact absurd rfl h
  | _ => rfl

theorem munch_arrow : Munch ('=' :: '>' :: r) (.punctuation .arrow) ('=' :: ('>' :: r).take 1) := by
  refine Munch.of_lead rfl ?_
  intro q v hq hv hr
  rcases eq_of_lead_mark hq with ⟨h, -⟩ | ⟨h, -⟩ | ⟨h, -⟩ | ⟨h, -⟩ | ⟨m, rfl, hm⟩
  · exact absurd h (by decide)
  · exact absurd h (by decide)
  · exact absurd h (by decide)
  · exact absurd h (by decide)
  · have hle : m.text.toList.length ≤ 2 := by cases m <;> decide
    rw [← show '=' :: v = m.text.toList from hv] at hle
    exact ⟨Nat.le_of_succ_le_succ hle, fun _ => Nat.le_refl _⟩

theorem munch_punctuation {m : Punctuation} (h : Punctuation.ofChar? c = some m)
    (hlead : Lead.ofChar c = .mark c) (hr : c = '=' → ∀ t, r ≠ '>' :: t) :
    Munch (c :: r) (.punctuation m) (c :: r.take 0) := by
  refine Munch.of_lead (text_of_ofChar? h).symm ?_
  intro q v hq hv hpre
  rw [hlead] at hq
  rcases eq_of_lead_mark hq with ⟨rfl, -⟩ | ⟨rfl, -⟩ | ⟨rfl, -⟩ | ⟨rfl, -⟩ | ⟨m', rfl, hm⟩
  · cases h
  · cases h
  · cases h
  · cases h
  · have hv : c :: v = m'.text.toList := hv
    by_cases ha : m' = .arrow
    · subst ha
      obtain ⟨rfl, rfl⟩ := List.cons.inj hv
      obtain ⟨t, rfl⟩ := hpre
      exact absurd rfl (hr rfl t)
    · have hm' := ofChar?_first ha
      rw [hm] at hm'
      rw [text_of_ofChar? hm'] at hv
      cases hv
      exact ⟨Nat.le_refl _, fun _ => Nat.le_refl _⟩

/-- A character that begins no other match is a token by itself, unless it is white space. -/
theorem munch_other (hc : ¬Text.isBlank c)
    (h : ∀ q v, q.lead = some (Lead.ofChar c) → v <+: r → c :: v ∉ language q) :
    Munch (c :: r) .other (c :: r.take 0) := by
  refine Munch.of_lead ⟨c, by simpa using hc, rfl⟩ ?_
  intro q v hq hv hr
  exact absurd hv (h q v hq hr)

/-- A character that begins none of the literals, comments and punctuations begins no match. -/
theorem not_mem_of_mark (hlead : Lead.ofChar c = .mark c) (hc : Punctuation.ofChar? c = none)
    (hquote : ¬(c = '"' ∨ c = '\'')) (htick : c ≠ '\x60') (hslash : c = '/' → ∀ t, r ≠ '/' :: t)
    (hstar : c = '/' → ∀ t, r ≠ '*' :: t) (hq : q.lead = some (Lead.ofChar c)) (hr : v <+: r) :
    c :: v ∉ language q := by
  intro hv
  rw [hlead] at hq
  rcases eq_of_lead_mark hq with ⟨rfl, h⟩ | ⟨h, -⟩ | ⟨h, -⟩ | ⟨h, -⟩ | ⟨m, -, hm⟩
  · obtain ⟨t, rfl⟩ := hr
    rcases h with rfl | rfl
    · obtain ⟨-, b, rfl, -⟩ := mem_lineComment.1 hv
      exact hslash rfl _ rfl
    · obtain ⟨-, b, -, rfl⟩ := mem_blockComment.1 hv
      exact hstar rfl _ rfl
  · exact hquote (.inl h)
  · exact hquote (.inr h)
  · exact htick h
  · subst hm
    cases m <;> cases hc

theorem no_match_of_blank (hlead : Lead.ofChar c = .mark c) (hb : Text.isBlank c)
    (h : ∀ q v, q.lead = some (Lead.ofChar c) → v <+: r → c :: v ∉ language q) :
    ∀ q v, v <+: c :: r → v ∉ language q := by
  intro q v hv hq
  obtain ⟨d, t, rfl, hl⟩ := lead_of_mem hq
  obtain ⟨rfl, ht⟩ := List.cons_prefix_cons.1 hv
  cases hql : q.lead with
  | none =>
    cases q with
    | other =>
      obtain ⟨e, he, he'⟩ := hq
      cases he'
      simp [hb] at he
    | _ => cases hql
  | some l =>
    refine h q t ?_ ht hq
    rw [hql, hl l hql]

/-- What the reader takes as the next lexeme: the longest match, or a white space character that
no pattern has. -/
theorem munch_classify (c : Char) (r : List Char) :
    (∃ p, Munch (c :: r) p (c :: r.take (classify c r).2) ∧
      p.kind (c :: r.take (classify c r).2) = (classify c r).1) ∨
    (classify c r = (.unknown, 0) ∧ Text.isBlank c ∧ ¬isSkipped c ∧
      ∀ p w, w <+: c :: r → w ∉ language p) := by
  fun_cases classify c r with
  | case1 c r hs => exact .inl ⟨_, munch_skipped hs, rfl⟩
  | case2 c r hs hd => exact .inl ⟨_, munch_number hd, rfl⟩
  | case3 c r hs hd hn tail =>
    refine .inl ⟨_, munch_word hn, ?_⟩
    rw [take_length_takeWhile]
    exact kind_ofWord _
  | case4 c r hs hd hn hq n hc =>
    have hbody := dropLast_take_of_closing hc
    rcases hq with rfl | rfl
    · refine .inl ⟨.doubleQuoted, munch_quotedBy (by decide) rfl ?_ hc, ?_⟩
      · exact fun q => eq_of_lead_doubleQuote
      · rw [kind, List.tail_cons, hbody]
    · refine .inl ⟨.singleQuoted, munch_quotedBy (by decide) rfl ?_ hc, ?_⟩
      · exact fun q => eq_of_lead_singleQuote
      · rw [kind, List.tail_cons, hbody]
  | case5 c r hs hd hn hq hc =>
    -- A quote that nothing closes begins no literal, so it stands for itself.
    refine .inl ⟨.other, munch_other ?_ ?_, rfl⟩
    · rcases hq with rfl | rfl <;> decide
    · intro q v hl hr
      rcases hq with rfl | rfl
      · rw [eq_of_lead_doubleQuote hl]
        exact not_mem_quotedBy (by decide) hc hr
      · rw [eq_of_lead_singleQuote hl]
        exact not_mem_quotedBy (by decide) hc hr
  | case6 r n hs hd hn hq hc =>
    refine .inl ⟨.template, munch_quotedBy (by decide) rfl ?_ hc, rfl⟩
    exact fun q => eq_of_lead_backtick
  | case7 r hs hd hn hq hc =>
    refine .inl ⟨.other, munch_other (by decide) ?_, rfl⟩
    intro q v hl hr
    rw [eq_of_lead_backtick hl]
    exact not_mem_quotedBy (by decide) hc hr
  | case8 r => exact .inl ⟨_, munch_lineComment, rfl⟩
  | case9 r n hc => exact .inl ⟨_, munch_blockComment hc, rfl⟩
  | case10 r hc =>
    refine .inl ⟨.other, munch_other (by decide) ?_, rfl⟩
    intro q v hl hr hv
    -- A slash begins a comment only together with the character after it.
    rcases eq_of_lead_slash hl with rfl | rfl
    · obtain ⟨-, b, rfl, -⟩ := mem_lineComment.1 hv
      exact absurd (List.cons_prefix_cons.1 hr).1 (by decide)
    · obtain ⟨-, t, ht, rfl⟩ := mem_blockComment.1 hv
      obtain ⟨rest, rfl⟩ := (List.cons_prefix_cons.1 hr).2
      rw [commentClosing_tail ht] at hc
      cases hc
  | case11 r => exact .inl ⟨_, munch_arrow, rfl⟩
  | case12 c r hs hd hn hq ht m hm h1 h2 h3 =>
    rw [hm]
    refine .inl ⟨_, munch_punctuation hm (ofChar_mark hs hd hn) ?_, rfl⟩
    rintro rfl t rfl
    exact h3 _ rfl rfl
  | case13 c r hs hd hn hq ht hm hb h1 h2 h3 =>
    rw [hm]
    refine .inr ⟨by simp [hb], hb, hs, no_match_of_blank (ofChar_mark hs hd hn) hb ?_⟩
    intro q v hl hr
    exact not_mem_of_mark (ofChar_mark hs hd hn) hm hq ht (fun he t ht => h1 t he ht)
      (fun he t ht => h2 t he ht) hl hr
  | case14 c r hs hd hn hq ht hm hb h1 h2 h3 =>
    rw [hm]
    refine .inl ⟨.other, ?_, by simp [hb, kind]⟩
    simp only [hb]
    refine munch_other hb ?_
    intro q v hl hr
    exact not_mem_of_mark (ofChar_mark hs hd hn) hm hq ht (fun he t ht => h1 t he ht)
      (fun he t ht => h2 t he ht) hl hr

end Pattern

end PathAudit
