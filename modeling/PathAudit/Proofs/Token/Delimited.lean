import PathAudit.Proofs.Token.Pattern

/-! Quoted literals and block comments. Both end where they are closed first, so at most one word
of each begins a text: the searches for the closing quote and for `*/` succeed exactly where there
is one, and answer its length. -/

namespace PathAudit.Pattern

open Computability Lexeme

variable {c d q : Char} {multiline : Bool} {w r : List Char} {n : Nat}

theorem closing_escape : closing q multiline ('\\' :: d :: r) = (closing q multiline r).map (· + 2) := by
  rw [closing]

theorem closing_plain (hc : c ≠ '\\') : closing q multiline (c :: r) =
    if c = q then some 1 else if c = '\n' && !multiline then none
    else (closing q multiline r).map (· + 1) := by
  rw [closing]
  · intro h
    exact absurd h hc
  · intro _ _ h
    exact absurd h hc

theorem escape_mem_body (h : w ∈ body q multiline) : '\\' :: d :: w ∈ body q multiline := by
  refine append_mem_kstar (w := ['\\', d]) (.inr ?_) h
  exact mem_one_mul.2 ⟨'\\', [d], rfl, ⟨d, rfl, rfl⟩, rfl⟩

theorem plain_mem_body (hc : c ≠ '\\') (hq : c ≠ q) (hn : multiline ∨ c ≠ '\n')
    (h : w ∈ body q multiline) : c :: w ∈ body q multiline := by
  refine append_mem_kstar (w := [c]) (.inl ⟨c, ?_, rfl⟩) h
  simp [hc, hq, hn]

/-- A search for the closing quote goes over the body of a literal. -/
theorem closing_body (hq : q ≠ '\\') (h : w ∈ body q multiline) :
    closing q multiline (w ++ q :: r) = some (w.length + 1) := by
  refine kstar_induction (P := fun w => closing q multiline (w ++ q :: r) = some (w.length + 1)) h ?_ ?_
  · rw [List.nil_append, closing_plain hq, if_pos rfl]
    rfl
  · intro u hu v ih
    rcases hu with ⟨c, hc, rfl⟩ | hu
    · simp only [Bool.and_eq_true, Bool.or_eq_true, bne_iff_ne] at hc
      have hn : ¬ (c = '\n' && !multiline) := by
        rcases hc.2 with h | h <;> simp [h]
      rw [List.singleton_append, List.cons_append, closing_plain hc.1.2, if_neg hc.1.1, if_neg hn, ih]
      rfl
    · obtain ⟨c, _, hc, ⟨d, -, rfl⟩, rfl⟩ := mem_one_mul.1 hu
      cases (beq_iff_eq.1 hc)
      simp only [List.cons_append, List.nil_append]
      rw [closing_escape, ih]
      rfl

theorem ne_of_not_escape (hend : c = '\\' → r = [] → False)
    (hescape : ∀ d t, c = '\\' → r = d :: t → False) : c ≠ '\\' := by
  intro hc
  cases r with
  | nil => exact hend hc rfl
  | cons d t => exact hescape d t hc rfl

theorem body_of_closing (h : closing q multiline r = some n) :
    ∃ w rest, r = w ++ q :: rest ∧ w ∈ body q multiline ∧ n = w.length + 1 := by
  fun_induction closing q multiline r generalizing n with
  | case1 => cases h
  | case2 => cases h
  | case3 d r ih =>
    obtain ⟨k, hk, rfl⟩ := Option.map_eq_some_iff.1 h
    obtain ⟨w, rest, rfl, hw, rfl⟩ := ih hk
    exact ⟨'\\' :: d :: w, rest, rfl, escape_mem_body hw, rfl⟩
  | case4 r _ _ =>
    cases h
    exact ⟨[], r, rfl, Language.nil_mem_kstar _, rfl⟩
  | case5 => cases h
  | case6 c r h1 h2 hq hn ih =>
    obtain ⟨k, hk, rfl⟩ := Option.map_eq_some_iff.1 h
    obtain ⟨w, rest, rfl, hw, rfl⟩ := ih hk
    refine ⟨c :: w, rest, rfl, plain_mem_body (ne_of_not_escape h1 h2) hq ?_ hw, rfl⟩
    by_cases hc : c = '\n'
    · exact .inl (by simpa [hc] using hn)
    · exact .inr hc

theorem closing_eq_some_iff (hq : q ≠ '\\') : closing q multiline r = some n ↔
    ∃ w rest, r = w ++ q :: rest ∧ w ∈ body q multiline ∧ n = w.length + 1 := by
  constructor
  · exact body_of_closing
  · rintro ⟨w, rest, rfl, hw, rfl⟩
    exact closing_body hq hw

/-- A quoted literal begins a text exactly where the search for its closing quote succeeds. -/
theorem mem_quotedBy : w ∈ quotedBy q multiline ↔
    ∃ v ∈ body q multiline, w = q :: (v ++ [q]) := by
  rw [quotedBy, mem_mul_one]
  constructor
  · rintro ⟨_, _, hv, hc, rfl⟩
    obtain ⟨_, v, hd, hbody, rfl⟩ := mem_one_mul.1 hv
    cases beq_iff_eq.1 hc
    cases beq_iff_eq.1 hd
    exact ⟨v, hbody, rfl⟩
  · rintro ⟨v, hv, rfl⟩
    exact ⟨q :: v, q, mem_one_mul.2 ⟨q, v, by simp, hv, rfl⟩, by simp, rfl⟩

theorem commentClosing_star (h : ∀ v, r ≠ '/' :: v) :
    commentClosing ('*' :: r) = (commentClosing r).map (· + 1) := by
  rw [commentClosing]
  intro v _ hr
  exact h v hr

theorem commentClosing_plain (hc : c ≠ '*') :
    commentClosing (c :: r) = (commentClosing r).map (· + 1) := by
  rw [commentClosing]
  intro v h _
  exact hc h

theorem commentClosing_stars (h : ∀ c ∈ w, c = '*') (hr : ∀ v, r ≠ '/' :: v) :
    commentClosing (w ++ r) = (commentClosing r).map (· + w.length) := by
  induction w with
  | nil => simp
  | cons c w ih =>
    cases h c (by simp)
    have hw : ∀ v, w ++ r ≠ '/' :: v := by
      cases w with
      | nil => exact hr
      | cons d w =>
        cases h d (by simp)
        simp
    rw [List.cons_append, commentClosing_star hw, ih fun c hc => h c (by simp [hc])]
    simp [Function.comp_def, Nat.add_assoc]

theorem commentClosing_end (h : ∀ c ∈ w, c = '*') :
    commentClosing ('*' :: w ++ '/' :: r) = some (w.length + 2) := by
  induction w with
  | nil => rfl
  | cons c w ih =>
    cases h c (by simp)
    rw [List.cons_append, List.cons_append, commentClosing_star (by simp), ← List.cons_append,
      ih fun c hc => h c (by simp [hc])]
    rfl

theorem mem_stars : w ∈ one (· == '*') * (one (· == '*'))∗ ↔ ∃ s, (∀ c ∈ s, c = '*') ∧ w = '*' :: s := by
  simp only [mem_one_mul, mem_kstar_one, beq_iff_eq]
  constructor
  · rintro ⟨_, s, rfl, hs, rfl⟩
    exact ⟨s, hs, rfl⟩
  · rintro ⟨s, hs, rfl⟩
    exact ⟨_, s, rfl, hs, rfl⟩

theorem mem_starred : w ∈ starred ↔
    ∃ s c, (∀ d ∈ s, d = '*') ∧ c ≠ '*' ∧ c ≠ '/' ∧ w = '*' :: s ++ [c] := by
  simp only [starred, mem_mul_one, mem_stars, Bool.and_eq_true, bne_iff_ne]
  constructor
  · rintro ⟨_, c, ⟨s, hs, rfl⟩, hc, rfl⟩
    exact ⟨s, c, hs, hc.1, hc.2, rfl⟩
  · rintro ⟨s, c, hs, h1, h2, rfl⟩
    exact ⟨_, c, ⟨s, hs, rfl⟩, ⟨h1, h2⟩, rfl⟩

theorem mem_commentTail : w ∈ commentTail ↔
    ∃ b ∈ commentBody, ∃ s, (∀ c ∈ s, c = '*') ∧ w = b ++ '*' :: s ++ ['/'] := by
  rw [commentTail, mem_mul_one]
  constructor
  · rintro ⟨_, c, hm, hc, rfl⟩
    obtain ⟨b, hb, _, hstars, rfl⟩ := Language.mem_mul.1 hm
    obtain ⟨s, hs, rfl⟩ := mem_stars.1 hstars
    cases beq_iff_eq.1 hc
    exact ⟨b, hb, s, hs, rfl⟩
  · rintro ⟨b, hb, s, hs, rfl⟩
    exact ⟨_, '/', Language.append_mem_mul hb (mem_stars.2 ⟨s, hs, rfl⟩), by simp, rfl⟩

/-- What closes a comment is found behind the body, and not before. -/
theorem commentClosing_tail (h : w ∈ commentTail) : commentClosing (w ++ r) = some w.length := by
  obtain ⟨b, hb, s, hs, rfl⟩ := mem_commentTail.1 h
  refine kstar_induction (P := fun b => commentClosing ((b ++ '*' :: s ++ ['/']) ++ r) =
    some (b ++ '*' :: s ++ ['/']).length) hb ?_ ?_
  · simpa using commentClosing_end (r := r) hs
  · rintro u (⟨c, hc, rfl⟩ | hu) b ih
    · have hc : c ≠ '*' := by simpa using hc
      rw [List.singleton_append, List.cons_append, List.cons_append, List.cons_append,
        commentClosing_plain hc, ih]
      rfl
    · obtain ⟨v, c, hv, h1, h2, rfl⟩ := mem_starred.1 hu
      have hv' : ∀ c ∈ '*' :: v, c = '*' := by simpa using hv
      have hslash : ∀ x, c :: (b ++ '*' :: s ++ ['/'] ++ r) ≠ '/' :: x := by simp [h2]
      have := commentClosing_stars hv' hslash
      rw [commentClosing_plain h1, ih] at this
      simpa [Nat.add_comm, Nat.add_left_comm, Nat.add_assoc] using this

theorem cons_mem_commentTail (h : w ∈ commentTail) (hc : c = '*' → ∀ v, w ≠ '/' :: v) :
    c :: w ∈ commentTail := by
  obtain ⟨b, hb, s, hs, rfl⟩ := mem_commentTail.1 h
  by_cases hstar : c = '*'
  · have hslash := hc hstar
    cases hstar
    rcases mem_kstar_iff.1 hb with rfl | ⟨u, ⟨d, hd, rfl⟩ | hu, b', hb', rfl⟩
    · refine mem_commentTail.2 ⟨[], hb, '*' :: s, ?_, rfl⟩
      simpa using hs
    · -- the star joins a character that does not close the comment
      have hd' : d ≠ '*' := by simpa using hd
      have hds : d ≠ '/' := by
        rintro rfl
        exact hslash _ rfl
      have hu : ['*', d] ∈ starred := mem_starred.2 ⟨[], d, by simp, hd', hds, rfl⟩
      exact mem_commentTail.2 ⟨['*', d] ++ b', append_mem_kstar (.inr hu) hb', s, hs, rfl⟩
    · obtain ⟨v, d, hv, h1, h2, rfl⟩ := mem_starred.1 hu
      have hu : '*' :: ('*' :: v) ++ [d] ∈ starred :=
        mem_starred.2 ⟨'*' :: v, d, by simpa using hv, h1, h2, rfl⟩
      exact mem_commentTail.2 ⟨_, append_mem_kstar (.inr hu) hb', s, hs, rfl⟩
  · have hu : [c] ∈ one (· != '*') := ⟨c, by simpa using hstar, rfl⟩
    exact mem_commentTail.2 ⟨_, append_mem_kstar (.inl hu) hb, s, hs, rfl⟩

theorem tail_of_commentClosing (h : commentClosing r = some n) :
    ∃ w rest, r = w ++ rest ∧ w ∈ commentTail ∧ n = w.length := by
  fun_induction commentClosing r generalizing n with
  | case1 => cases h
  | case2 r =>
    cases h
    exact ⟨['*', '/'], r, rfl,
      mem_commentTail.2 ⟨[], Language.nil_mem_kstar _, [], by simp, rfl⟩, rfl⟩
  | case3 c r hc ih =>
    obtain ⟨k, hk, rfl⟩ := Option.map_eq_some_iff.1 h
    obtain ⟨w, rest, rfl, hw, rfl⟩ := ih hk
    refine ⟨c :: w, rest, rfl, cons_mem_commentTail hw ?_, rfl⟩
    rintro rfl v rfl
    exact hc (v ++ rest) rfl rfl

theorem commentClosing_eq_some_iff : commentClosing r = some n ↔
    ∃ w rest, r = w ++ rest ∧ w ∈ commentTail ∧ n = w.length := by
  constructor
  · exact tail_of_commentClosing
  · rintro ⟨w, rest, rfl, hw, rfl⟩
    exact commentClosing_tail hw

end PathAudit.Pattern
