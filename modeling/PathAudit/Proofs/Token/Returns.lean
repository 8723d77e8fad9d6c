import PathAudit.Proofs.Token.LineEnd
import PathAudit.Proofs.Token.Standing

/-! Carriage returns before newlines. Between tokens they mean nothing, and comments and templates hold
them as any other character. A quoted literal goes on over a newline only if a backslash stands right
before it; a carriage return between the two ends the literal, or rather undoes it, since its quote is
then closed by nothing. So the same tokens are read exactly if no literal goes on over a newline. -/

namespace PathAudit

open Computability Lexeme Pattern

variable {c d q : Char} {r s t v w : List Char} {p : Pattern} {n : Nat}

namespace Text

def withReturns (s : List Char) : List Char :=
  s.flatMap fun c => if c = '\n' then ['\r', '\n'] else [c]

@[simp] theorem withReturns_nil : withReturns [] = [] := rfl

theorem withReturns_newline (s : List Char) :
    withReturns ('\n' :: s) = '\r' :: '\n' :: withReturns s := rfl

theorem withReturns_cons (hc : c ≠ '\n') (s : List Char) :
    withReturns (c :: s) = c :: withReturns s := by
  rw [withReturns, List.flatMap_cons, if_neg hc]
  rfl

theorem withReturns_append (s t : List Char) :
    withReturns (s ++ t) = withReturns s ++ withReturns t :=
  List.flatMap_append

theorem withReturns_of_not_mem (h : '\n' ∉ s) : withReturns s = s := by
  induction s with
  | nil => rfl
  | cons c s ih =>
    rw [List.mem_cons, not_or] at h
    rw [withReturns_cons (Ne.symm h.1), ih h.2]

/-- A text with carriage returns begins as the text does, but for a newline. -/
theorem exists_of_withReturns_eq_cons (hd : d ≠ '\r') (h : withReturns s = d :: t) :
    ∃ t', s = d :: t' ∧ t = withReturns t' := by
  cases s with
  | nil => cases h
  | cons c s =>
    by_cases hc : c = '\n'
    · subst hc
      exact absurd (List.cons.inj h).1.symm hd
    · rw [withReturns_cons hc] at h
      obtain ⟨rfl, rfl⟩ := List.cons.inj h
      exact ⟨s, rfl, rfl⟩

theorem withReturns_ne_cons (hd : d ≠ '\r') (h : ∀ t, s ≠ d :: t) (t : List Char) :
    withReturns s ≠ d :: t := by
  intro ht
  obtain ⟨t', hs, -⟩ := exists_of_withReturns_eq_cons hd ht
  exact h t' hs

theorem mem_of_mem_withReturns (h : d ∈ withReturns s) : d = '\r' ∨ d ∈ s := by
  obtain ⟨c, hc, hd⟩ := List.mem_flatMap.1 h
  by_cases hn : c = '\n'
  · rw [if_pos hn] at hd
    rcases List.mem_pair.1 hd with rfl | rfl
    · exact .inl rfl
    · exact .inr (hn ▸ hc)
  · rw [if_neg hn] at hd
    exact .inr (List.mem_singleton.1 hd ▸ hc)

theorem prefix_withReturns_iff (h : '\n' ∉ v) (h' : '\r' ∉ v) : v <+: withReturns s ↔ v <+: s := by
  constructor
  · intro hpre
    induction v generalizing s with
    | nil => exact List.nil_prefix
    | cons d v ih =>
      rw [List.mem_cons, not_or] at h h'
      obtain ⟨t, ht⟩ := hpre
      obtain ⟨t', rfl, ht'⟩ := exists_of_withReturns_eq_cons (Ne.symm h'.1) ht.symm
      exact List.cons_prefix_cons.2 ⟨rfl, ih h.2 h'.2 ⟨t, ht'⟩⟩
  · rintro ⟨t, rfl⟩
    rw [withReturns_append, withReturns_of_not_mem h]
    exact List.prefix_append v _

/-- The first `n` characters of a text and the others get their carriage returns apart. -/
theorem withReturns_split (n : Nat) (s : List Char) :
    withReturns s = withReturns (s.take n) ++ withReturns (s.drop n) := by
  rw [← withReturns_append, List.take_append_drop]

end Text

open Text

namespace Pattern

/-- The search for the quote that closes a literal on one line fails if a newline comes before it. -/
theorem closing_withReturns_line (hq : q ≠ '\n') (hq' : q ≠ '\r') (hb : q ≠ '\\') (r : List Char) :
    closing q false (withReturns r) = (closing q false r).filter fun n => '\n' ∉ r.take n := by
  fun_induction closing q false r with
  | case1 => rfl
  | case2 => rfl
  | case3 d r ih =>
    by_cases hd : d = '\n'
    · -- the backslash takes the carriage return, so the newline ends the search
      subst hd
      rw [withReturns_cons (by decide), withReturns_newline, closing_escape, closing_plain (by decide),
        if_neg (Ne.symm hq), if_pos (by rfl), Option.filter_map]
      simp [Function.comp_def]
    · rw [withReturns_cons (by decide), withReturns_cons hd, closing_escape, ih, Option.filter_map]
      simp [Function.comp_def, Ne.symm hd]
  | case4 r _ _ =>
    rw [withReturns_cons hq, closing_plain hb, if_pos rfl]
    simp [Option.filter, Ne.symm hq]
  | case5 c r h1 h2 hc hn =>
    obtain rfl : c = '\n' := by simpa using hn
    rw [withReturns_newline, closing_plain (by decide), if_neg (Ne.symm hq'), if_neg (by decide),
      closing_plain (by decide), if_neg (Ne.symm hq), if_pos (by rfl)]
    rfl
  | case6 c r h1 h2 hc hn ih =>
    have hn : c ≠ '\n' := by simpa using hn
    rw [withReturns_cons hn, closing_plain (ne_of_not_escape h1 h2), if_neg hc, if_neg (by simp [hn]), ih,
      Option.filter_map]
    simp [Function.comp_def, Ne.symm hn]

/-- The search for the quote that closes a template goes over the carriage returns. -/
theorem closing_withReturns (hq : q ≠ '\n') (hq' : q ≠ '\r') (hb : q ≠ '\\') (r : List Char) :
    closing q true (withReturns r) =
      (closing q true r).map fun n => (withReturns (r.take n)).length := by
  fun_induction closing q true r with
  | case1 => rfl
  | case2 => rfl
  | case3 d r ih =>
    by_cases hd : d = '\n'
    · subst hd
      rw [withReturns_cons (by decide), withReturns_newline, closing_escape, closing_plain (by decide),
        if_neg (Ne.symm hq), if_neg (by simp), ih]
      simp [Function.comp_def, withReturns_cons, withReturns_newline]
    · rw [withReturns_cons (by decide), withReturns_cons hd, closing_escape, ih]
      simp [Function.comp_def, withReturns_cons, hd]
  | case4 r _ _ =>
    rw [withReturns_cons hq, closing_plain hb, if_pos rfl]
    simp [withReturns_cons hq]
  | case5 c r h1 h2 hc hn => simp at hn
  | case6 c r h1 h2 hc _ ih =>
    by_cases hn : c = '\n'
    · subst hn
      rw [withReturns_newline, closing_plain (by decide), if_neg (Ne.symm hq'), if_neg (by decide),
        closing_plain (by decide), if_neg (Ne.symm hq), if_neg (by simp), ih]
      simp [Function.comp_def, withReturns_newline]
    · rw [withReturns_cons hn, closing_plain (ne_of_not_escape h1 h2), if_neg hc, if_neg (by simp), ih]
      simp [Function.comp_def, withReturns_cons hn]

theorem commentClosing_withReturns (r : List Char) :
    commentClosing (withReturns r) =
      (commentClosing r).map fun n => (withReturns (r.take n)).length := by
  fun_induction commentClosing r with
  | case1 => rfl
  | case2 r =>
    rw [withReturns_cons (by decide), withReturns_cons (by decide), commentClosing]
    rfl
  | case3 c r hc ih =>
    by_cases hn : c = '\n'
    · subst hn
      rw [withReturns_newline, commentClosing_plain (by decide), commentClosing_plain (by decide), ih]
      simp [Function.comp_def, withReturns_newline]
    · rw [withReturns_cons hn, commentClosing, ih]
      · simp [Function.comp_def, withReturns_cons hn]
      · exact fun t hstar ht => withReturns_ne_cons (by decide) (fun t hr => hc t hstar hr) t ht

/-- A character that begins only matches without white space. -/
def Plain (c : Char) : Prop :=
  ¬isSkipped c ∧ c ≠ '/' ∧ c ≠ '"' ∧ c ≠ '\'' ∧ c ≠ '\x60'

theorem not_isBlank_of_plain (hc : Plain c) (h : c :: v ∈ p.language) :
    ∀ d ∈ c :: v, ¬Text.isBlank d := by
  obtain ⟨hs, hslash, hdouble, hsingle, htick⟩ := hc
  intro d hd
  cases p with
  | skipped => exact absurd ((mem_run.1 h).2 c List.mem_cons_self) hs
  | lineComment => exact absurd (mem_lineComment.1 h).1 hslash
  | blockComment => exact absurd (mem_blockComment.1 h).1 hslash
  | doubleQuoted =>
    obtain ⟨_, -, he⟩ := mem_quotedBy.1 h
    exact absurd (List.cons.inj he).1 hdouble
  | singleQuoted =>
    obtain ⟨_, -, he⟩ := mem_quotedBy.1 h
    exact absurd (List.cons.inj he).1 hsingle
  | template =>
    obtain ⟨_, -, he⟩ := mem_quotedBy.1 h
    exact absurd (List.cons.inj he).1 htick
  | _ => exact not_isBlank_of_mem h (by simp) rfl hd

/-- What a plain character begins is there with carriage returns exactly if it is there without. -/
theorem prefix_withReturns_of_plain (hc : Plain c) (h : v ∈ p.language) :
    v <+: withReturns (c :: r) ↔ v <+: c :: r := by
  have hn : c ≠ '\n' := by
    rintro rfl
    exact hc.1 (by decide)
  obtain ⟨d, t, rfl, -⟩ := lead_of_mem h
  by_cases hd : d = c
  · subst hd
    have hblank := not_isBlank_of_plain hc h
    exact prefix_withReturns_iff (fun hn => hblank _ hn (by decide)) fun hr => hblank _ hr (by decide)
  · rw [withReturns_cons hn, List.cons_prefix_cons, List.cons_prefix_cons]
    simp only [hd, false_and]

theorem Munch.withReturns (hc : Plain c) (h : Munch (c :: r) p w) :
    Munch (withReturns (c :: r)) p w where
  isPrefix := (prefix_withReturns_of_plain hc h.mem).2 h.isPrefix
  mem := h.mem
  longest q v hv hq := h.longest q v ((prefix_withReturns_of_plain hc hq).1 hv) hq
  strongest := h.strongest

end Pattern

def LexemeKind.token? : LexemeKind → Option Token
  | .token t => some t
  | _ => none

def LexemeKind.isString : LexemeKind → Bool
  | .token (.string _) => true
  | _ => false

theorem exists_of_isString {k : LexemeKind} (h : k.isString) : ∃ value, k = .token (.string value) := by
  unfold LexemeKind.isString at h
  split at h
  · exact ⟨_, rfl⟩
  · cases h

namespace Lexeme

def tokensIn (s : List Char) : List Token := (ofText s).filterMap (·.kind.token?)

/-- The string that begins with `c` goes on over a newline. -/
def RunsOver (c : Char) (r : List Char) : Prop :=
  (classify c r).1.isString ∧ '\n' ∈ r.take (classify c r).2

/-- The lexeme that begins with `c` is read among carriage returns too, and they leave what comes after it
to itself. -/
def Kept (c : Char) (r : List Char) : Prop :=
  tokensIn (withReturns (c :: r)) =
    (classify c r).1.token?.toList ++ tokensIn (withReturns (r.drop (classify c r).2))

theorem tokensIn_cons (c : Char) (r : List Char) : tokensIn (c :: r) =
    (classify c r).1.token?.toList ++ tokensIn (r.drop (classify c r).2) := by
  rw [tokensIn, ofText_cons, List.filterMap_cons]
  cases (classify c r).1.token? <;> rfl

theorem map_token_resume (start : Nat) (s : List Char) :
    (Scan.resume start s).tokens.map PlacedToken.token = tokensIn s := by
  rw [Scan.resume, tokensIn]
  generalize ofText s = ls
  induction ls generalizing start with
  | nil => rfl
  | cons l ls ih =>
    obtain ⟨k, w⟩ := l
    cases k with
    | token t => exact congrArg (t :: ·) (ih _)
    | _ => exact ih _

theorem tokensIn_trivia (hw : Trivia w) (s : List Char) : tokensIn (w ++ s) = tokensIn s := by
  rw [← map_token_resume 0, Scan.resume_trivia hw, map_token_resume]

theorem classify_skipped (hc : isSkipped c) (r : List Char) :
    classify c r = (.skipped, (r.takeWhile isSkipped).length) := by
  simp [classify, hc]

theorem classify_quote (hq : c = '"' ∨ c = '\'') (r : List Char) : classify c r =
    match closing c false r with
    | some n => (.token (.string (String.ofList (Token.literalValue (r.take (n - 1))))), n)
    | none => (.token (.other c), 0) := by
  rcases hq with rfl | rfl <;> rfl

theorem classify_backtick (r : List Char) : classify '\x60' r =
    match closing '\x60' true r with
    | some n => (.token .template, n)
    | none => (.token (.other '\x60'), 0) := rfl

theorem classify_line (r : List Char) :
    classify '/' ('/' :: r) = (.comment, 1 + (r.takeWhile (· != '\n')).length) := rfl

theorem classify_star (r : List Char) : classify '/' ('*' :: r) =
    match commentClosing r with
    | some n => (.comment, 1 + n)
    | none => (.token (.other '/'), 0) := rfl

theorem classify_slash (hline : ∀ t, r ≠ '/' :: t) (hblock : ∀ t, r ≠ '*' :: t) :
    classify '/' r = (.token (.other '/'), 0) := by
  unfold classify
  rw [if_neg (by decide), if_neg (by decide), if_neg (by decide), if_neg (by decide),
    if_neg (by decide)]
  split
  · exact absurd rfl (hline _)
  · exact absurd rfl (hblock _)
  · next h => exact absurd h (by decide)
  · rfl

/-- A lexeme that is of one kind in both texts, and longer in the other by its carriage returns. -/
theorem kept_of_classify (hc : c ≠ '\n')
    (h : classify c (withReturns r) =
      ((classify c r).1, (withReturns (r.take (classify c r).2)).length)) :
    Kept c r := by
  rw [Kept, withReturns_cons hc, tokensIn_cons, h, withReturns_split (classify c r).2 r, List.drop_left]

theorem kept_skipped (hc : isSkipped c) (r : List Char) : Kept c r := by
  have hrun : ∀ d ∈ withReturns (c :: r.takeWhile isSkipped), isSkipped d := by
    intro d hd
    rcases mem_of_mem_withReturns hd with rfl | hd
    · decide
    · rcases List.mem_cons.1 hd with rfl | hd
      · exact hc
      · exact List.mem_takeWhile_imp hd
  have htext : (c :: r.takeWhile isSkipped) ++ r.drop (r.takeWhile isSkipped).length = c :: r := by
    have hr := List.take_append_drop (r.takeWhile isSkipped).length r
    rw [take_length_takeWhile] at hr
    rw [List.cons_append, hr]
  rw [Kept, ← htext, withReturns_append, classify_skipped hc]
  exact tokensIn_trivia (Trivia.of_skipped hrun) _

theorem tokensIn_line (hline : '\n' ∉ v) (hstop : ∀ d ∈ r.head?, d = '\n') :
    tokensIn ('/' :: '/' :: (v ++ r)) = tokensIn r := by
  have hrun : (v ++ r).takeWhile (· != '\n') = v := by
    rw [List.takeWhile_append_of_pos fun d hd => bne_iff_ne.2 (ne_of_mem_of_not_mem hd hline)]
    cases r with
    | nil => simp
    | cons d r => simp [hstop d rfl]
  rw [tokensIn_cons, classify_line, hrun, Nat.add_comm, List.drop_succ_cons, List.drop_left]
  rfl

theorem kept_line (r : List Char) : Kept '/' ('/' :: r) := by
  have hsplit : r.takeWhile (· != '\n') ++ r.dropWhile (· != '\n') = r :=
    List.takeWhile_append_dropWhile
  have hline : '\n' ∉ r.takeWhile (· != '\n') := fun h => by
    simpa using List.mem_takeWhile_imp h
  have hstop := List.head?_dropWhile_not (· != '\n') r
  rw [Kept, classify_line]
  generalize r.takeWhile (· != '\n') = b at *
  generalize r.dropWhile (· != '\n') = rest at *
  subst hsplit
  rw [Nat.add_comm, List.drop_succ_cons, List.drop_left, withReturns_cons (by decide),
    withReturns_cons (by decide), withReturns_append, withReturns_of_not_mem hline]
  cases rest with
  | nil => exact tokensIn_line hline (by simp)
  | cons d t =>
    -- the comment ends at the same newline, one character later
    obtain rfl : d = '\n' := by simpa using hstop
    have hreturn : Trivia ['\r'] := .skipped (by decide) .nil
    rw [withReturns_newline, List.append_cons, tokensIn_line (by simpa using hline) (by simp)]
    exact (tokensIn_trivia hreturn _).symm

theorem kept_plain (hc : Plain c) (r : List Char) : Kept c r := by
  have htext : c :: r = (c :: r.take (classify c r).2) ++ r.drop (classify c r).2 := by simp
  have hkept (h : '\n' ∉ c :: r.take (classify c r).2) : withReturns (c :: r) =
      (c :: r.take (classify c r).2) ++ withReturns (r.drop (classify c r).2) := by
    conv_lhs => rw [htext, withReturns_append, withReturns_of_not_mem h]
  have hread : ofText (withReturns (c :: r)) = ⟨(classify c r).1, c :: r.take (classify c r).2⟩ ::
      ofText (withReturns (r.drop (classify c r).2)) := by
    rcases munch_classify c r with ⟨p, hm, hk⟩ | ⟨hk, hb, hs, hno⟩
    · have hline : '\n' ∉ c :: r.take (classify c r).2 :=
        fun hn => not_isBlank_of_plain hc hm.mem _ hn (by decide)
      have hm' := hm.withReturns hc
      rw [hkept hline] at hm' ⊢
      rw [ofText_of_munch hm', hk]
    · have hn : '\n' ∉ [c] := fun hn => hs (List.mem_singleton.1 hn ▸ by decide)
      have hnone : ∀ p v, v <+: withReturns (c :: r) → v ∉ Pattern.language p :=
        fun p v hv hp => hno p v ((prefix_withReturns_of_plain hc hp).1 hv) hp
      have := hkept (by simpa [hk] using hn)
      rw [this] at hnone ⊢
      rw [hk] at hnone ⊢
      exact Scan.ofText_stray hnone
  rw [Kept, tokensIn, hread, List.filterMap_cons]
  cases (classify c r).1.token? <;> rfl

theorem kept_slash (r : List Char) : Kept '/' r := by
  by_cases hline : ∃ t, r = '/' :: t
  · obtain ⟨t, rfl⟩ := hline
    exact kept_line t
  refine kept_of_classify (by decide) ?_
  by_cases hblock : ∃ t, r = '*' :: t
  · obtain ⟨t, rfl⟩ := hblock
    rw [withReturns_cons (by decide), classify_star, classify_star, commentClosing_withReturns]
    cases commentClosing t with
    | none => rfl
    | some n =>
      rw [Option.map_some]
      simp [Nat.add_comm 1, withReturns_cons]
  · rw [not_exists] at hline hblock
    rw [classify_slash hline hblock, classify_slash (withReturns_ne_cons (by decide) hline)
      (withReturns_ne_cons (by decide) hblock)]
    rfl

theorem kept_backtick (r : List Char) : Kept '\x60' r := by
  refine kept_of_classify (by decide) ?_
  rw [classify_backtick, classify_backtick, closing_withReturns (by decide) (by decide) (by decide)]
  cases closing '\x60' true r <;> rfl

theorem quote_ne (hq : c = '"' ∨ c = '\'') : c ≠ '\n' ∧ c ≠ '\r' ∧ c ≠ '\\' := by
  rcases hq with rfl | rfl <;> decide

theorem runsOver_iff : RunsOver c r ↔
    (c = '"' ∨ c = '\'') ∧ ∃ n, closing c false r = some n ∧ '\n' ∈ r.take n := by
  constructor
  · rintro ⟨hk, hn⟩
    obtain ⟨value, hk⟩ := exists_of_isString hk
    have hquote : c = '"' ∨ c = '\'' := by
      have hl : (⟨.token (.string value), c :: r.take (classify c r).2⟩ : Lexeme) ∈ ofText (c :: r) := by
        rw [ofText_cons, hk]
        exact List.mem_cons_self
      obtain ⟨q, hq, hmem⟩ := exists_quotedBy_of_string hl rfl
      obtain ⟨v, -, he⟩ := mem_quotedBy.1 hmem
      exact (List.cons.inj he).1 ▸ hq
    refine ⟨hquote, ?_⟩
    rw [classify_quote hquote] at hk hn
    cases h : closing c false r with
    | none =>
      rw [h] at hk
      cases hk
    | some n =>
      rw [h] at hn
      exact ⟨n, rfl, hn⟩
  · rintro ⟨hquote, n, h, hn⟩
    rw [RunsOver, classify_quote hquote, h]
    exact ⟨rfl, hn⟩

theorem kept_quote (hq : c = '"' ∨ c = '\'') (h : ¬RunsOver c r) : Kept c r := by
  obtain ⟨hn, hr, hb⟩ := quote_ne hq
  refine kept_of_classify hn ?_
  rw [classify_quote hq, classify_quote hq, closing_withReturns_line hn hr hb]
  cases hc : closing c false r with
  | none => rfl
  | some n =>
    have hline : '\n' ∉ r.take n := fun hline => h (runsOver_iff.2 ⟨hq, n, hc, hline⟩)
    obtain ⟨w, rest, rfl, -, rfl⟩ := body_of_closing hc
    have htake : (w ++ c :: rest).take (w.length + 1) = w ++ [c] := by simp [List.take_append]
    rw [withReturns_split (w.length + 1), withReturns_of_not_mem hline, Option.filter_some,
      if_pos (by simpa using hline), htake]
    simp

/-- A literal that goes on over a newline is undone. -/
theorem tokensIn_withReturns_of_runsOver (h : RunsOver c r) :
    ∃ ts, tokensIn (withReturns (c :: r)) = .other c :: ts := by
  obtain ⟨hq, n, hc, hline⟩ := runsOver_iff.1 h
  obtain ⟨hn, hr, hb⟩ := quote_ne hq
  have hnone : closing c false (withReturns r) = none := by
    rw [closing_withReturns_line hn hr hb, hc, Option.filter_some, if_neg (by simpa using hline)]
  refine ⟨tokensIn (withReturns r), ?_⟩
  rw [withReturns_cons hn, tokensIn_cons, classify_quote hq, hnone]
  rfl

theorem kept_of_not_runsOver (h : ¬RunsOver c r) : Kept c r := by
  by_cases hs : isSkipped c
  · exact kept_skipped hs r
  by_cases hslash : c = '/'
  · subst hslash
    exact kept_slash r
  by_cases hquote : c = '"' ∨ c = '\''
  · exact kept_quote hquote h
  by_cases htick : c = '\x60'
  · subst htick
    exact kept_backtick r
  · rw [not_or] at hquote
    exact kept_plain ⟨hs, hslash, hquote.1, hquote.2, htick⟩ r

/-- No quoted literal of the text goes on over a newline. -/
def LiteralsOnOneLine (s : List Char) : Prop :=
  ∀ l ∈ ofText s, l.kind.isString → '\n' ∉ l.text

instance (s : List Char) : Decidable (LiteralsOnOneLine s) :=
  inferInstanceAs (Decidable (∀ l ∈ ofText s, l.kind.isString → '\n' ∉ l.text))

theorem literalsOnOneLine_cons : LiteralsOnOneLine (c :: r) ↔
    ¬RunsOver c r ∧ LiteralsOnOneLine (r.drop (classify c r).2) := by
  rw [LiteralsOnOneLine, ofText_cons, List.forall_mem_cons]
  refine and_congr_left fun _ => ?_
  constructor
  · rintro h ⟨hk, hline⟩
    exact h hk (List.mem_cons_of_mem c hline)
  · intro h hk hline
    rcases List.mem_cons.1 hline with rfl | hline
    · cases hk
    · exact h ⟨hk, hline⟩

/-- A carriage return before each newline leaves the tokens of a text as they are, but for their places,
exactly if no quoted literal goes on over a newline. -/
theorem tokensIn_withReturns_iff (s : List Char) :
    tokensIn (withReturns s) = tokensIn s ↔ LiteralsOnOneLine s := by
  fun_induction ofText s with
  | case1 => simp [LiteralsOnOneLine, ofText]
  | case2 c r kind n hk ih =>
    rw [literalsOnOneLine_cons]
    rw [show n = (classify c r).2 by rw [hk]] at ih
    by_cases h : RunsOver c r
    · -- the first token is a string in the one text and a quote in the other
      obtain ⟨ts, hother⟩ := tokensIn_withReturns_of_runsOver h
      obtain ⟨value, hstring⟩ := exists_of_isString h.1
      have hne : tokensIn (withReturns (c :: r)) ≠ tokensIn (c :: r) := by
        rw [hother, tokensIn_cons, hstring]
        rintro ⟨⟩
      simp [hne, h]
    · rw [kept_of_not_runsOver h, tokensIn_cons, List.append_cancel_left_eq, ih]
      simp [h]

end Lexeme

end PathAudit
