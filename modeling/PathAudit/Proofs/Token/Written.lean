import PathAudit.Proofs.Syntax.Print
import PathAudit.Proofs.Token.Quoting
import PathAudit.Proofs.Token.Scan

/-! Written tokens are read back. A token that separators or the end of the text follow is the
longest match at its place, because nothing that it could go on with follows it. -/

namespace PathAudit

open Lexeme Pattern

variable {c : Char} {w r rest : List Char} {p : Pattern} {t : Token}

/-- Nothing follows, or something that separates tokens. -/
def Separated (rest : List Char) : Prop :=
  ∀ c r, rest = c :: r → isSkipped c

/-- The characters that are tokens by themselves, whatever separated text is around them. -/
def isMark (c : Char) : Bool :=
  !Text.isBlank c && !isSkipped c && !c.isDigit && !isNameStart c && c != '"' && c != '\'' &&
    c != '\x60' && (Punctuation.ofChar? c).isNone

def Token.isLegible : Token → Bool
  | .keyword _ => true
  | .punctuation _ => true
  | .string _ => true
  | .template => false
  | .number => true
  | .identifier name => isWord name
  | .other c => isMark c

theorem Separated.takeWhile_eq_nil {f : Char → Bool} (h : Separated rest)
    (hf : ∀ c, isSkipped c → f c = false) : rest.takeWhile f = [] := by
  cases rest with
  | nil => rfl
  | cons c r =>
    have := hf c (h c r rfl)
    exact List.takeWhile_cons_of_neg (by simp [this])

theorem not_isNamePart_of_isSkipped (h : isSkipped c) : isNamePart c = false := by
  have hs := isSkipped_iff.1 h
  rw [Bool.eq_false_iff]
  intro hn
  rcases Bool.or_eq_true_iff.1 hn with hn | hn
  · have := isNameStart_iff.1 hn
    omega
  · have := isDigit_iff.1 hn
    omega

theorem ofText_of_munch (h : Munch (w ++ rest) p w) :
    ofText (w ++ rest) = ⟨p.kind w, w⟩ :: ofText rest :=
  (eq_ofText_of_cut (.piece h (cut_ofText rest))).symm

theorem ofText_skipped (hne : w ≠ []) (h : ∀ c ∈ w, isSkipped c)
    (hrest : ∀ c r, rest = c :: r → ¬isSkipped c) :
    ofText (w ++ rest) = ⟨.skipped, w⟩ :: ofText rest := by
  cases w with
  | nil => exact absurd rfl hne
  | cons c w =>
    have hstop : rest.takeWhile isSkipped = [] := by
      cases rest with
      | nil => rfl
      | cons d r => exact List.takeWhile_cons_of_neg (hrest d r rfl)
    have hrun : ((w ++ rest).takeWhile isSkipped).length = w.length := by
      rw [takeWhile_run fun d hd => h d (by simp [hd]), hstop]
      rfl
    have hm := munch_skipped (r := w ++ rest) (h c (by simp))
    rw [hrun, List.take_left] at hm
    exact ofText_of_munch (w := c :: w) hm

theorem munch_name (hc : isNameStart c) (hw : ∀ d ∈ w, isNamePart d) (hrest : Separated rest) :
    Munch (c :: w ++ rest) (ofWord (c :: w)) (c :: w) := by
  have hrun : (w ++ rest).takeWhile isNamePart = w := by
    rw [List.takeWhile_append_of_pos hw, hrest.takeWhile_eq_nil fun _ => not_isNamePart_of_isSkipped,
      List.append_nil]
  have := munch_word (r := w ++ rest) hc
  rwa [hrun, List.take_left] at this

theorem munch_mark {m : Punctuation} (hm : m ≠ .arrow) (hrest : Separated rest) :
    Munch (m.text.toList ++ rest) (.punctuation m) m.text.toList := by
  have hlead : Lead.ofChar m.first = .mark m.first := by cases m <;> decide
  rw [text_of_ofChar? (ofChar?_first hm)]
  refine munch_punctuation (ofChar?_first hm) hlead ?_
  rintro - t rfl
  exact absurd (hrest _ _ rfl) (by decide)

theorem numberLength_separated (hrest : Separated rest) : numberLength rest = 0 := by
  have hskip : ∀ c, isSkipped c → isDigitPart c = false := by
    intro c hc
    have := not_isNamePart_of_isSkipped hc
    rw [isNamePart, Bool.or_eq_false_iff] at this
    rw [isDigitPart, this.2, Bool.false_or, beq_eq_false_iff_ne]
    rintro rfl
    exact absurd hc (by decide)
  rw [numberLength, hrest.takeWhile_eq_nil hskip]
  cases rest with
  | nil => rfl
  | cons c r =>
    have hc := hrest c r rfl
    have hdot : c ≠ '.' := by
      rintro rfl
      exact absurd hc (by decide)
    have hexp : ¬(c = 'e' ∨ c = 'E') := by
      rintro (rfl | rfl) <;> exact absurd hc (by decide)
    simp [fractionLength_plain hdot, exponentLength, hexp]

theorem munch_zero (hrest : Separated rest) : Munch ('0' :: rest) .number ['0'] := by
  have := munch_number (r := rest) (c := '0') (by decide)
  rwa [numberLength_separated hrest, List.take_zero] at this

theorem munch_isMark (hc : isMark c) (hrest : Separated rest) : Munch (c :: rest) .other [c] := by
  simp only [isMark, Bool.and_eq_true, Bool.not_eq_true', bne_iff_ne, Option.isNone_iff_eq_none] at hc
  obtain ⟨⟨⟨⟨⟨⟨⟨hblank, hskip⟩, hdigit⟩, hname⟩, hquote⟩, happ⟩, htick⟩, hmark⟩ := hc
  have hlead : Lead.ofChar c = .mark c := ofChar_mark (by simp [hskip]) (by simp [hdigit]) (by simp [hname])
  refine munch_other (by simp [hblank]) fun q v hq hv => ?_
  refine not_mem_of_mark hlead hmark (by simp [hquote, happ]) htick ?_ ?_ hq hv
  · rintro rfl t rfl
    exact absurd (hrest _ _ rfl) (by decide)
  · rintro rfl t rfl
    exact absurd (hrest _ _ rfl) (by decide)

/-- A written token is the longest match where it stands, and it is read as that token. -/
theorem munch_written (ht : t.isLegible) (hrest : Separated rest) :
    ∃ p, Munch (t.written.toList ++ rest) p t.written.toList ∧
      p.kind t.written.toList = .token t := by
  cases t with
  | keyword k =>
    refine ⟨.keyword k, ?_, rfl⟩
    have hword : ofWord k.text.toList = .keyword k := by
      rw [Pattern.ofWord, String.ofList_toList, ofText?_text]
    rw [← hword]
    cases k
    · exact munch_name (c := 'c') (by decide) (List.all_eq_true.1 (by decide)) hrest
    · exact munch_name (c := 'l') (by decide) (List.all_eq_true.1 (by decide)) hrest
    · exact munch_name (c := 'v') (by decide) (List.all_eq_true.1 (by decide)) hrest
  | punctuation m =>
    refine ⟨.punctuation m, ?_, rfl⟩
    by_cases hm : m = .arrow
    · subst hm
      exact munch_arrow
    · exact munch_mark hm hrest
  | string value =>
    have hlist : (Token.string value).written.toList = Text.quote value.toList := String.toList_ofList
    rw [hlist]
    have hbody := Token.quote_mem_body value.toList
    refine ⟨.doubleQuoted, munch_literal .double hbody rest, (kind_literal .double _).trans ?_⟩
    rw [Token.literalValue_quote, String.ofList_toList]
  | template => cases ht
  | number => exact ⟨.number, munch_zero hrest, rfl⟩
  | identifier name =>
    have hname : isWord name := ht
    rw [isWord] at hname
    cases hlist : name.toList with
    | nil =>
      rw [hlist] at hname
      cases hname
    | cons c w =>
      rw [hlist] at hname
      simp only [Bool.and_eq_true, List.all_eq_true, Option.isNone_iff_eq_none] at hname
      obtain ⟨⟨hc, hw⟩, hkeyword⟩ := hname
      have hwritten : (Token.identifier name).written.toList = c :: w := hlist
      have hstring : String.ofList (c :: w) = name := by rw [← hlist, String.ofList_toList]
      rw [hwritten]
      refine ⟨Pattern.ofWord (c :: w), munch_name hc hw hrest, ?_⟩
      rw [kind_ofWord, hstring, Lexeme.ofWord, hkeyword]
  | other c =>
    have hlist : (Token.other c).written.toList = [c] := by
      show (String.singleton c).toList = [c]
      simp
    rw [hlist]
    exact ⟨.other, munch_isMark ht hrest, rfl⟩

theorem ofText_written (ht : t.isLegible) (hrest : Separated rest) :
    ofText (t.written.toList ++ rest) = ⟨.token t, t.written.toList⟩ :: ofText rest := by
  obtain ⟨p, hp, hkind⟩ := munch_written ht hrest
  rw [ofText_of_munch hp, hkind]

end PathAudit
