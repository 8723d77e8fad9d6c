import PathAudit.Proofs.Token.Layout

/-! A newline keeps apart what is read before and after it. Of the patterns that admit a newline at all,
a template and a block comment must be opened before it, and a quoted literal must have a backslash
right before it; where there is none of these no match runs across, and the longest matches before the
newline are those of the text that ends there. -/

namespace PathAudit

open Computability Lexeme Pattern

namespace Text

def Span.shift (n : Nat) (s : Span) : Span := ⟨s.start + n, s.stop + n⟩

end Text

def PlacedToken.shift (n : Nat) (t : PlacedToken) : PlacedToken := { t with span := t.span.shift n }

def Unrecognized.shift (n : Nat) (e : Unrecognized) : Unrecognized := { e with span := e.span.shift n }

variable {c : Char} {q : Char} {a b u w r s t v : List Char} {p : Pattern} {k : LexemeKind} {n start : Nat}

theorem Trivia.of_skipped (h : ∀ c ∈ w, isSkipped c) : Trivia w := by
  induction w with
  | nil => exact .nil
  | cons c w ih => exact .skipped (h c List.mem_cons_self) (ih fun d hd => h d (List.mem_cons_of_mem c hd))

/-- Nothing that begins in the text can go on over a newline after it, but for skipped characters. -/
structure EndsLine (s : List Char) : Prop where
  backtick : '\x60' ∉ s
  comment : ¬['/', '*'] <:+: s
  backslash : s.getLast? ≠ some '\\'

theorem EndsLine.of_append (h : EndsLine (w ++ r)) : EndsLine r := by
  refine ⟨?_, ?_, ?_⟩
  · exact fun hr => h.backtick (List.mem_append_right w hr)
  · exact fun hr => h.comment (hr.trans (List.suffix_append w r).isInfix)
  · intro hr
    apply h.backslash
    rw [List.getLast?_append, hr]
    rfl

namespace Pattern

/-- In the body of a quoted literal a newline comes after a backslash. -/
theorem getLast?_of_body (h : v ∈ body q false) (hv : v = u ++ '\n' :: t) : u.getLast? = some '\\' := by
  refine kstar_induction (P := fun v => ∀ u, v = u ++ '\n' :: t → u.getLast? = some '\\') h ?_ ?_ u hv
  · intro u hu
    simp at hu
  · intro x hx y ih u hu
    rcases hx with ⟨d, hd, rfl⟩ | hx
    · cases u with
      | nil =>
        obtain ⟨rfl, -⟩ := List.cons.inj hu
        simp at hd
      | cons e u =>
        obtain ⟨-, hy⟩ := List.cons.inj hu
        rw [List.getLast?_cons, ih u hy]
        rfl
    · obtain ⟨e, _, he, ⟨d, -, rfl⟩, rfl⟩ := mem_one_mul.1 hx
      cases beq_iff_eq.1 he
      -- the newline is escaped, or it comes later
      match u with
      | [] => cases hu
      | [e] =>
        obtain ⟨rfl, -⟩ := List.cons.inj hu
        rfl
      | e :: d :: u =>
        obtain ⟨-, htail⟩ := List.cons.inj hu
        obtain ⟨-, hy⟩ := List.cons.inj htail
        rw [List.getLast?_cons, List.getLast?_cons, ih u hy]
        rfl

theorem Munch.all_skipped (h : Munch (c :: s) p (c :: t)) (hc : isSkipped c) :
    ∀ d ∈ c :: t, isSkipped d := by
  have hrun := munch_skipped (r := s) hc
  rw [(h.unique hrun).1]
  exact (mem_run.1 hrun.mem).2

end Pattern

namespace EndsLine

theorem not_mem (h : EndsLine (c :: s)) (hc : ¬isSkipped c) (t : List Char) (p : Pattern) :
    c :: s ++ '\n' :: t ∉ p.language := by
  intro hw
  have hnewline : '\n' ∈ c :: s ++ '\n' :: t := by simp
  -- a quote that opens here is closed after the newline, and the newline is escaped
  have quoted (q : Char) (hq : q ≠ '\n') (hw : c :: s ++ '\n' :: t ∈ quotedBy q false) : False := by
    obtain ⟨v, hv, htext⟩ := mem_quotedBy.1 hw
    obtain ⟨-, htail⟩ := List.cons.inj htext
    have hclose : '\n' :: t ≠ [q] := by
      intro ht
      exact hq (List.cons.inj ht).1.symm
    obtain ⟨x, hx, hbody⟩ : ∃ x, v = s ++ '\n' :: x ∧ '\n' :: t = '\n' :: x ++ [q] := by
      rcases List.append_eq_append_iff.1 htail with ⟨y, hy, ht⟩ | ⟨y, hy, ht⟩
      · cases y with
        | nil => exact absurd ht hclose
        | cons d y =>
          cases (List.cons.inj ht).1
          exact ⟨y, hy, ht⟩
      · cases y with
        | nil => exact absurd ht.symm hclose
        | cons d y => simp at ht
    apply h.backslash
    rw [List.getLast?_cons, getLast?_of_body hv hx]
    rfl
  cases p with
  | skipped => exact hc ((mem_run.1 hw).2 c List.mem_cons_self)
  | lineComment =>
    obtain ⟨-, x, hx, hline⟩ := mem_lineComment.1 hw
    have : '\n' ∈ '/' :: x := by simp [← hx]
    rcases List.mem_cons.1 this with h | h
    · cases h
    · exact hline _ h rfl
  | blockComment =>
    obtain ⟨rfl, x, -, hx⟩ := mem_blockComment.1 hw
    cases s with
    | nil => cases (List.cons.inj hx).1
    | cons d s =>
      cases (List.cons.inj hx).1
      exact h.comment ⟨[], s, rfl⟩
  | doubleQuoted => exact quoted '"' (by decide) hw
  | singleQuoted => exact quoted '\'' (by decide) hw
  | template =>
    obtain ⟨x, -, hx⟩ := mem_quotedBy.1 hw
    apply h.backtick
    rw [(List.cons.inj hx).1]
    exact List.mem_cons_self
  | _ => exact not_isBlank_of_mem hw (by simp) rfl hnewline (by decide)

theorem prefix_of_mem (h : EndsLine (c :: s)) (hc : ¬isSkipped c) (hv : v <+: c :: s ++ '\n' :: t)
    (hw : v ∈ p.language) : v <+: c :: s := by
  rcases List.prefix_or_prefix_of_prefix hv (List.prefix_append (c :: s) _) with hv | ⟨x, rfl⟩
  · exact hv
  · cases x with
    | nil => exact (List.append_nil (c :: s)).symm ▸ List.prefix_rfl
    | cons d x =>
      obtain ⟨rfl, -⟩ := List.cons_prefix_cons.1 ((List.prefix_append_right_inj _).1 hv)
      exact absurd hw (h.not_mem hc x p)

theorem munch (h : EndsLine (c :: s)) (hc : ¬isSkipped c) (hm : Munch (c :: s) p w) (t : List Char) :
    Munch (c :: s ++ '\n' :: t) p w where
  isPrefix := hm.isPrefix.trans (List.prefix_append _ _)
  mem := hm.mem
  longest q v hv hq := hm.longest q v (h.prefix_of_mem hc hv hq) hq
  strongest := hm.strongest

end EndsLine

namespace Scan

def shift (n : Nat) (x : Scan) : Scan :=
  ⟨x.tokens.map (PlacedToken.shift n), x.errors.map (Unrecognized.shift n)⟩

theorem append_assoc (x y z : Scan) : x ++ y ++ z = x ++ (y ++ z) :=
  congrArg₂ Scan.mk (List.append_assoc _ _ _) (List.append_assoc _ _ _)

theorem shift_append (x y : Scan) : (x ++ y).shift n = x.shift n ++ y.shift n :=
  congrArg₂ Scan.mk List.map_append List.map_append

theorem single_shift (l : Lexeme) : single (start + n) l = (single start l).shift n := by
  have hstop : start + n + Text.byteLength l.text = start + Text.byteLength l.text + n :=
    Nat.add_right_comm _ _ _
  rw [single, single, hstop]
  cases l.kind <;> rfl

theorem ofText_stray (h : ∀ p v, v <+: c :: r → v ∉ Pattern.language p) :
    Lexeme.ofText ([c] ++ r) = ⟨.unknown, [c]⟩ :: Lexeme.ofText r :=
  (eq_ofText_of_cut (.stray h (cut_ofText r))).symm

/-- What is read of a text does not depend on where it begins, but for the places. -/
theorem resume_shift (s : List Char) : resume (start + n) s = (resume start s).shift n := by
  induction s using cut_induction generalizing start with
  | nil =>
    rw [resume_nil, resume_nil]
    rfl
  | piece p w r hm ih =>
    have hread := ofText_of_munch hm
    rw [resume_cons hread, resume_cons hread, shift_append, ← single_shift, ← ih,
      Nat.add_right_comm]
  | stray c r hno ih =>
    have hread := ofText_stray hno
    rw [← List.singleton_append, resume_cons hread, resume_cons hread, shift_append,
      ← single_shift, ← ih, Nat.add_right_comm]

/-- Nothing that is read of a line depends on what comes after it. -/
theorem resume_newline (h : EndsLine a) (b : List Char) :
    resume start (a ++ '\n' :: b) =
      resume start a ++ resume (start + Text.byteLength a + 1) b := by
  induction a using cut_induction generalizing start with
  | nil =>
    rw [List.nil_append, resume_skipped (by decide), resume_nil]
    rfl
  | piece p w r hm ih =>
    have hrest := @ih (start + Text.byteLength w) h.of_append
    rw [Nat.add_assoc start, ← Text.byteLength_append] at hrest
    rw [List.append_assoc]
    obtain ⟨c, t, rfl, -⟩ := lead_of_mem hm.mem
    by_cases hc : isSkipped c
    · -- the run may go on after the newline, so it is passed over as trivia on both sides
      have hrun := Trivia.of_skipped (hm.all_skipped hc)
      rw [resume_trivia hrun, resume_trivia hrun, hrest]
    · have hover : Munch (c :: t ++ (r ++ '\n' :: b)) p (c :: t) := by
        simpa using h.munch hc hm b
      rw [resume_cons (ofText_of_munch hover), resume_cons (ofText_of_munch hm), hrest,
        append_assoc]
  | stray c r hno ih =>
    have hrest := @ih (start + Text.byteLength [c]) (h.of_append (w := [c]))
    rw [Nat.add_assoc start, ← Text.byteLength_append] at hrest
    have hc : ¬isSkipped c := fun hc => hno _ _ (munch_skipped hc).isPrefix (munch_skipped hc).mem
    have hover : ∀ p v, v <+: c :: (r ++ '\n' :: b) → v ∉ Pattern.language p :=
      fun p v hv hp => hno p v (h.prefix_of_mem hc hv hp) hp
    rw [← List.singleton_append, List.append_assoc, resume_cons (ofText_stray hover),
      resume_cons (ofText_stray hno), hrest, append_assoc]

/-- A newline ends what is read before it: if the text before it opens no template and no comment
that could go on, and no backslash escapes the newline, the tokens and the errors are those of the
two texts by themselves. -/
theorem ofText_newline (a b : String) (hbacktick : '\x60' ∉ a.toList)
    (hcomment : ¬['/', '*'] <:+: a.toList) (hbackslash : a.toList.getLast? ≠ some '\\') :
    (ofText (a ++ "\n" ++ b)).tokens = (ofText a).tokens ++
        (ofText b).tokens.map (PlacedToken.shift (Text.byteLength a.toList + 1)) ∧
      (ofText (a ++ "\n" ++ b)).errors = (ofText a).errors ++
        (ofText b).errors.map (Unrecognized.shift (Text.byteLength a.toList + 1)) := by
  have htext : (a ++ "\n" ++ b).toList = a.toList ++ '\n' :: b.toList := by simp
  have hread : ofText (a ++ "\n" ++ b) =
      ofText a ++ (ofText b).shift (Text.byteLength a.toList + 1) := by
    rw [ofText_eq_resume, htext, resume_newline ⟨hbacktick, hcomment, hbackslash⟩, Nat.add_assoc,
      resume_shift]
    rfl
  exact ⟨congrArg tokens hread, congrArg errors hread⟩

/-- A string that is not closed, with an escaped quote and half a number in it, hides nothing of the
next line, nor does white space there that separates no tokens. -/
theorem ofText_after_stray_quote :
    let a := "\"don't \\\" 1e+"
    let b := "let\u00a0\"gone\""
    '\x60' ∉ a.toList ∧ ¬['/', '*'] <:+: a.toList ∧ a.toList.getLast? ≠ some '\\' ∧
      (ofText (a ++ "\n" ++ b)).tokens = (ofText a).tokens ++
        [⟨.keyword .lexical, ⟨14, 17⟩⟩, ⟨.string "gone", ⟨19, 25⟩⟩] ∧
      (ofText (a ++ "\n" ++ b)).errors = [⟨⟨17, 19⟩, "\u00a0"⟩] := by
  intro a b
  have hbacktick : '\x60' ∉ a.toList := by decide
  have hcomment : ¬['/', '*'] <:+: a.toList := by decide
  have hbackslash : a.toList.getLast? ≠ some '\\' := by decide
  have hread := ofText_newline a b hbacktick hcomment hbackslash
  have ha : (ofText a).errors = [] := by decide +kernel
  have hb : ofText b = ⟨[⟨.keyword .lexical, ⟨0, 3⟩⟩, ⟨.string "gone", ⟨5, 11⟩⟩],
    [⟨⟨3, 5⟩, "\u00a0"⟩]⟩ := by decide +kernel
  have hn : Text.byteLength a.toList + 1 = 14 := by decide +kernel
  rw [ha, hb, hn] at hread
  exact ⟨hbacktick, hcomment, hbackslash, hread⟩

end Scan

end PathAudit
