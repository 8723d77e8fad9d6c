import PathAudit.Proofs.Token.Written

/-! Tokens with trivia between them are read back, each from the bytes that it was written to. The
reader passes over trivia one character or one comment at a time, and what it reads after them does
not depend on how they ran. -/

namespace PathAudit

open Lexeme Pattern

/-- What may stand between tokens and means nothing: skipped characters, closed block comments, and
line comments with their newline. -/
inductive Trivia : List Char → Prop
  | nil : Trivia []
  | skipped {c w} : isSkipped c → Trivia w → Trivia (c :: w)
  | block {b w} : ¬['*', '/'] <:+: b ++ ['*'] → Trivia w →
      Trivia ('/' :: '*' :: (b ++ '*' :: '/' :: w))
  | line {b w} : '\n' ∉ b → Trivia w → Trivia ('/' :: '/' :: (b ++ '\n' :: w))

/-- Trivia that keep the tokens around them apart. -/
def IsGap (w : List Char) : Prop :=
  Trivia w ∧ ∃ c r, w = c :: r ∧ isSkipped c

variable {c : Char} {b w rest s : List Char} {k : LexemeKind} {t : Token} {start : Nat}

/-- A comment ends at the first `*/` after its opening. -/
theorem commentClosing_first (h : ¬['*', '/'] <:+: b ++ ['*']) (r : List Char) :
    commentClosing (b ++ '*' :: '/' :: r) = some (b.length + 2) := by
  induction b with
  | nil => rfl
  | cons c b ih =>
    have hlater : ¬['*', '/'] <:+: b ++ ['*'] := fun hb =>
      h (hb.trans (List.suffix_cons c _).isInfix)
    rw [List.cons_append, commentClosing, ih hlater]
    · rfl
    · intro t hstar hslash
      -- the slash cannot be the one that closes, so it follows the star inside the comment
      cases b with
      | nil => cases hslash
      | cons d b =>
        cases hstar
        cases hslash
        exact h ⟨[], b ++ ['*'], rfl⟩

namespace Scan

def resume (start : Nat) (s : List Char) : Scan :=
  let lexemes := Lexeme.place start (Lexeme.ofText s)
  { tokens := lexemes.filterMap fun
      | (.token t, _, span) => some ⟨t, span⟩
      | _ => none
    errors := lexemes.filterMap fun
      | (.unknown, text, span) => some ⟨span, String.ofList text⟩
      | _ => none }

theorem ofText_eq_resume (source : String) : ofText source = resume 0 source.toList := rfl

theorem resume_nil (start : Nat) : resume start [] = ⟨[], []⟩ := by
  simp [resume, Lexeme.ofText, place]

def append (x y : Scan) : Scan := ⟨x.tokens ++ y.tokens, x.errors ++ y.errors⟩

instance : Append Scan := ⟨append⟩

def single (start : Nat) (l : Lexeme) : Scan :=
  let span : Text.Span := ⟨start, start + Text.byteLength l.text⟩
  match l.kind with
  | .token t => ⟨[⟨t, span⟩], []⟩
  | .unknown => ⟨[], [⟨span, String.ofList l.text⟩]⟩
  | _ => ⟨[], []⟩

theorem resume_cons (h : Lexeme.ofText (w ++ rest) = ⟨k, w⟩ :: Lexeme.ofText rest) :
    resume start (w ++ rest) =
      single start ⟨k, w⟩ ++ resume (start + Text.byteLength w) rest := by
  simp only [resume, h, place]
  cases k <;> rfl

theorem resume_token (h : Lexeme.ofText (w ++ rest) = ⟨.token t, w⟩ :: Lexeme.ofText rest) :
    resume start (w ++ rest) =
      let after := resume (start + Text.byteLength w) rest
      ⟨⟨t, ⟨start, start + Text.byteLength w⟩⟩ :: after.tokens, after.errors⟩ :=
  resume_cons h

theorem ofText_of_token (h : Lexeme.ofText (w ++ []) = ⟨.token t, w⟩ :: Lexeme.ofText []) :
    ofText (String.ofList w) = ⟨[⟨t, ⟨0, Text.byteLength w⟩⟩], []⟩ := by
  have hread : resume 0 (w ++ []) = _ := resume_token h
  rw [ofText_eq_resume, String.toList_ofList, ← List.append_nil w, hread, resume_nil]
  simp

theorem resume_passed (hk : k = .skipped ∨ k = .comment)
    (h : Lexeme.ofText (w ++ rest) = ⟨k, w⟩ :: Lexeme.ofText rest) :
    resume start (w ++ rest) = resume (start + Text.byteLength w) rest := by
  rcases hk with rfl | rfl <;> exact resume_cons h

theorem resume_run (hw : ∀ c ∈ w, isSkipped c) (hrest : ∀ c r, rest = c :: r → ¬isSkipped c) :
    resume start (w ++ rest) = resume (start + Text.byteLength w) rest := by
  by_cases hne : w = []
  · subst hne
    rfl
  · exact resume_passed (.inl rfl) (ofText_skipped hne hw hrest)

/-- A skipped character is passed over, whether the run of skipped characters goes on or not. -/
theorem resume_skipped (hc : isSkipped c) (s : List Char) :
    resume start (c :: s) = resume (start + c.utf8Size) s := by
  have hs : s.takeWhile isSkipped ++ s.dropWhile isSkipped = s := List.takeWhile_append_dropWhile
  have hrun : ∀ d ∈ s.takeWhile isSkipped, isSkipped d := fun d hd => List.mem_takeWhile_imp hd
  have hstop : ∀ d r, s.dropWhile isSkipped = d :: r → ¬isSkipped d := by
    intro d r hd
    have := List.head?_dropWhile_not isSkipped s
    simpa [hd] using this
  have hcons : ∀ d ∈ c :: s.takeWhile isSkipped, isSkipped d := List.forall_mem_cons.2 ⟨hc, hrun⟩
  rw [← hs, ← List.cons_append, resume_run hcons hstop, resume_run hrun hstop, Text.byteLength_cons,
    Nat.add_assoc]

theorem resume_block (h : ¬['*', '/'] <:+: b ++ ['*']) (s : List Char) :
    resume start ('/' :: '*' :: (b ++ '*' :: '/' :: s)) =
      resume (start + Text.byteLength ('/' :: '*' :: (b ++ ['*', '/']))) s := by
  have hm := munch_blockComment (commentClosing_first h s)
  have htake : ('*' :: (b ++ '*' :: '/' :: s)).take (1 + (b.length + 2)) = '*' :: (b ++ ['*', '/']) := by
    rw [Nat.add_comm, List.take_succ_cons, List.take_length_add_append]
    rfl
  have htext : '/' :: '*' :: (b ++ '*' :: '/' :: s) = ('/' :: '*' :: (b ++ ['*', '/'])) ++ s := by simp
  rw [htake, htext] at hm
  rw [htext]
  exact resume_passed (.inr rfl) (ofText_of_munch hm)

theorem resume_line (h : '\n' ∉ b) (s : List Char) :
    resume start ('/' :: '/' :: (b ++ '\n' :: s)) =
      resume (start + Text.byteLength ('/' :: '/' :: (b ++ ['\n']))) s := by
  have hrun : (b ++ '\n' :: s).takeWhile (· != '\n') = b := by
    rw [List.takeWhile_append_of_pos fun d hd => bne_iff_ne.2 (ne_of_mem_of_not_mem hd h)]
    simp
  have hm := munch_lineComment (r := b ++ '\n' :: s)
  have htext : '/' :: '/' :: (b ++ '\n' :: s) = ('/' :: '/' :: b) ++ '\n' :: s := rfl
  rw [hrun, Nat.add_comm, List.take_succ_cons, List.take_left, htext] at hm
  rw [htext, resume_passed (.inr rfl) (ofText_of_munch hm), resume_skipped (by decide)]
  simp [Nat.add_assoc]

theorem resume_trivia (hw : Trivia w) (s : List Char) :
    resume start (w ++ s) = resume (start + Text.byteLength w) s := by
  induction hw generalizing start with
  | nil => rfl
  | skipped hc _ ih =>
    rw [List.cons_append, resume_skipped hc, ih, Text.byteLength_cons, Nat.add_assoc]
  | @block b w hb _ ih =>
    have htext : '/' :: '*' :: (b ++ '*' :: '/' :: w) ++ s =
        '/' :: '*' :: (b ++ '*' :: '/' :: (w ++ s)) := by simp
    rw [htext, resume_block hb, ih]
    simp [Nat.add_assoc]
  | @line b w hb _ ih =>
    have htext : '/' :: '/' :: (b ++ '\n' :: w) ++ s = '/' :: '/' :: (b ++ '\n' :: (w ++ s)) := by simp
    rw [htext, resume_line hb, ih]
    simp [Nat.add_assoc]

end Scan

/-- Holds of a spelling that is read as the token when separators or the end of the text follow. -/
def Spells (w : String) (t : Token) : Prop :=
  ∀ rest, Separated rest →
    Lexeme.ofText (w.toList ++ rest) = ⟨.token t, w.toList⟩ :: Lexeme.ofText rest

theorem spells_written (ht : t.isLegible) : Spells t.written t :=
  fun _ hrest => ofText_written ht hrest

/-- A legible token is written as messages name it, unless it is a number. -/
theorem spells_text (ht : t.isLegible) (hn : t ≠ .number) : Spells t.text t := by
  have hwritten : t.written = t.text := by
    cases t with
    | number => exact absurd rfl hn
    | _ => rfl
  exact hwritten ▸ spells_written ht

section Layout

variable (spell : Token → String) {laid : List (List Char × Token)}

/-- The text of some tokens, each with what stands before it. -/
def laidOut (laid : List (List Char × Token)) : List Char :=
  laid.flatMap fun p => p.1 ++ (spell p.2).toList

/-- The tokens of such a text, which begins at the byte `start`, with the bytes that each is written
to. -/
def placedAt (start : Nat) : List (List Char × Token) → List PlacedToken
  | [] => []
  | (gap, t) :: laid =>
    let first := start + Text.byteLength gap
    let stop := first + Text.byteLength (spell t).toList
    ⟨t, ⟨first, stop⟩⟩ :: placedAt stop laid

theorem map_token_placedAt (start : Nat) (laid : List (List Char × Token)) :
    (placedAt spell start laid).map PlacedToken.token = laid.map Prod.snd := by
  induction laid generalizing start with
  | nil => rfl
  | cons p laid ih => rw [placedAt, List.map_cons, ih, List.map_cons]

theorem separated_laidOut (hgaps : ∀ p ∈ laid.head?, IsGap p.1) : Separated (laidOut spell laid) := by
  intro c r hc
  cases laid with
  | nil => cases hc
  | cons p laid =>
    obtain ⟨-, d, w, hw, hd⟩ := hgaps p rfl
    rw [laidOut, List.flatMap_cons, hw] at hc
    cases hc
    exact hd

theorem Scan.resume_laidOut (start : Nat) (laid : List (List Char × Token))
    (hspell : ∀ p ∈ laid, Spells (spell p.2) p.2)
    (hfirst : ∀ p ∈ laid.head?, Trivia p.1) (hgaps : ∀ p ∈ laid.tail, IsGap p.1) :
    resume start (laidOut spell laid) = ⟨placedAt spell start laid, []⟩ := by
  induction laid generalizing start with
  | nil => exact resume_nil start
  | cons p laid ih =>
    have hnext : ∀ q ∈ laid.head?, IsGap q.1 := fun q hq => hgaps q (List.mem_of_mem_head? hq)
    have hread := hspell p List.mem_cons_self _ (separated_laidOut spell hnext)
    have hrest := ih (start + Text.byteLength p.1 + Text.byteLength (spell p.2).toList)
      (fun q hq => hspell q (List.mem_cons_of_mem _ hq)) (fun q hq => (hnext q hq).1)
      fun q hq => hgaps q (List.mem_of_mem_tail hq)
    rw [laidOut, List.flatMap_cons, ← laidOut, List.append_assoc, resume_trivia (hfirst p rfl),
      resume_token hread, hrest]
    rfl

/-- A text of legible tokens with a space between each two is read back as these tokens. -/
theorem Scan.ofText_spaced (ts : List Token) (hts : ∀ t ∈ ts, t.isLegible) :
    (ofText (" ".intercalate (ts.map Token.written))).tokens.map PlacedToken.token = ts ∧
      (ofText (" ".intercalate (ts.map Token.written))).errors = [] := by
  cases ts with
  | nil =>
    have hread := resume_nil 0
    exact ⟨congrArg (·.tokens.map PlacedToken.token) hread, congrArg Scan.errors hread⟩
  | cons t ts =>
    let laid : List (List Char × Token) := ([], t) :: ts.map ([' '], ·)
    have htext : (" ".intercalate ((t :: ts).map Token.written)).toList =
        laidOut Token.written laid := by
      rw [String.toList_intercalate, List.map_map, List.map_cons, intercalate_cons_flatMap, laidOut,
        List.flatMap_cons, List.flatMap_map, List.flatMap_map]
      rfl
    have htokens : laid.map Prod.snd = t :: ts := by simp [laid]
    have hgap : IsGap [' '] := ⟨.skipped (by decide) .nil, ' ', [], rfl, by decide⟩
    have hread := resume_laidOut Token.written 0 laid
      (fun p hp => spells_written (hts p.2 (htokens ▸ List.mem_map_of_mem hp)))
      (by rintro p ⟨⟩; exact .nil) (by simp [laid, hgap])
    rw [← htext, ← ofText_eq_resume] at hread
    rw [hread, map_token_placedAt, htokens]
    exact ⟨rfl, rfl⟩

/-- Tokens that are written as messages name them, with trivia before each of them that keep it
apart from the one before, are read back in order, each from the bytes that it was written to, and
nothing else is found. -/
theorem Scan.ofText_laidOut (laid : List (List Char × Token))
    (htokens : ∀ p ∈ laid, p.2.isLegible ∧ p.2 ≠ .number)
    (hfirst : ∀ p ∈ laid.head?, Trivia p.1) (hgaps : ∀ p ∈ laid.tail, IsGap p.1) :
    ofText (String.ofList (laidOut Token.text laid)) = ⟨placedAt Token.text 0 laid, []⟩ := by
  have hspell : ∀ p ∈ laid, Spells (Token.text p.2) p.2 :=
    fun p hp => spells_text (htokens p hp).1 (htokens p hp).2
  rw [ofText_eq_resume, String.toList_ofList, resume_laidOut Token.text 0 laid hspell hfirst hgaps]

end Layout

/-- Quotes in comments and comment openers in a string, with an escape in it, are no obstacle. -/
theorem Scan.ofText_quotes_in_comments :
    ofText "const /*\"//*/$a\t//'\n=> /\n/***/ \"*/\\\"\\u\x7b300\x7d\"" =
      ⟨[⟨.keyword .const, ⟨0, 5⟩⟩, ⟨.identifier "$a", ⟨13, 15⟩⟩, ⟨.punctuation .arrow, ⟨20, 22⟩⟩,
        ⟨.other '/', ⟨23, 24⟩⟩, ⟨.string "*/\"\u0300", ⟨31, 44⟩⟩], []⟩ := by
  let laid : List (List Char × Token) := [([], .keyword .const),
    ([' ', '/', '*', '"', '/', '/', '*', '/'], .identifier "$a"),
    (['\t', '/', '/', '\'', '\n'], .punctuation .arrow), ([' '], .other '/'),
    (['\n', '/', '*', '*', '*', '/', ' '], .string "*/\"\u0300")]
  have hspace (c : Char) (w : List Char) (hc : isSkipped c) (hw : Trivia w) : IsGap (c :: w) :=
    ⟨.skipped hc hw, c, w, rfl, hc⟩
  have hgaps : ∀ p ∈ laid.tail, IsGap p.1 := by
    simp only [laid, List.tail_cons, List.forall_mem_cons, List.not_mem_nil, false_imp_iff,
      implies_true, and_true]
    exact ⟨hspace _ _ (by decide) (.block (b := ['"', '/', '/']) (by decide) .nil),
      hspace _ _ (by decide) (.line (b := ['\'']) (by decide) .nil), hspace _ _ (by decide) .nil,
      hspace _ _ (by decide) (.block (b := ['*']) (by decide) (.skipped (by decide) .nil))⟩
  have hread := ofText_laidOut laid (by decide +kernel) (by rintro p ⟨⟩; exact .nil) hgaps
  have htext : String.ofList (laidOut Token.text laid) =
      "const /*\"//*/$a\t//'\n=> /\n/***/ \"*/\\\"\\u\x7b300\x7d\"" := by decide +kernel
  rw [htext] at hread
  rw [hread]
  decide +kernel

end PathAudit
