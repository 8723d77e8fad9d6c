import PathAudit.Proofs.Token.LongestMatch

/-! A text is cut in one way only when each piece is the longest match at its place, and the reader
cuts it so. What the pieces look like, which white space is left over between them and the bytes
that tokens and errors carry all follow from the cutting. -/

namespace PathAudit

open Computability Lexeme Pattern

/-- The text is cut into pieces that are each the longest match at its place, and into single
characters where nothing matches. -/
inductive Cut : List Char → List Lexeme → Prop
  | nil : Cut [] []
  | piece {p w r ls} : Munch (w ++ r) p w → Cut r ls → Cut (w ++ r) (⟨p.kind w, w⟩ :: ls)
  | stray {c r ls} : (∀ p w, w <+: c :: r → w ∉ language p) → Cut r ls →
      Cut (c :: r) (⟨.unknown, [c]⟩ :: ls)

variable {c : Char} {w v r s : List Char} {p q : Pattern} {ls : List Lexeme}

namespace Pattern

theorem rank_eq_zero (h : p.rank = 0) : p = .other := by
  cases p <;> first | rfl | cases h

theorem exists_lead (h : p ≠ .other) : ∃ l, p.lead = some l := by
  cases p <;> first | exact absurd rfl h | exact ⟨_, rfl⟩

theorem lead_eq_of_mem (hp : w ∈ p.language) (hq : w ∈ q.language) (hp0 : p ≠ .other)
    (hq0 : q ≠ .other) : p.lead = q.lead := by
  obtain ⟨l, hl⟩ := exists_lead hp0
  obtain ⟨m, hm⟩ := exists_lead hq0
  obtain ⟨c, t, rfl, h⟩ := lead_of_mem hp
  obtain ⟨d, u, he, h'⟩ := lead_of_mem hq
  obtain ⟨rfl, -⟩ := List.cons.inj he
  rw [hl, hm, h l hl, h' m hm]

theorem punctuation_ext {m m' : Punctuation} (h : m.text.toList = m'.text.toList) : m = m' := by
  have htext (k : Punctuation) (hk : k ≠ .arrow) : k.text.toList = [k.first] :=
    text_of_ofChar? (ofChar?_first hk)
  by_cases hm : m = .arrow <;> by_cases hm' : m' = .arrow
  · rw [hm, hm']
  · rw [hm, htext m' hm'] at h
    exact absurd (show 2 = 1 from congrArg List.length h) (by decide)
  · rw [hm', htext m hm] at h
    exact absurd (show 1 = 2 from congrArg List.length h) (by decide)
  · have := ofChar?_first hm
    rw [show m.first = m'.first by simp [Punctuation.first, h], ofChar?_first hm'] at this
    exact (Option.some.inj this).symm

theorem keyword_ext {k k' : Keyword} (h : k.text.toList = k'.text.toList) : k = k' := by
  have := ofText?_text k
  rw [String.toList_inj.1 h, ofText?_text] at this
  exact (Option.some.inj this).symm

/-- The patterns of one rank that share a text make the same of it. -/
theorem kind_eq_of_mem (hp : w ∈ p.language) (hq : w ∈ q.language) (hr : p.rank = q.rank) :
    p.kind w = q.kind w := by
  by_cases hp0 : p = .other
  · subst hp0
    rw [rank_eq_zero hr.symm]
  have hq0 : q ≠ .other := by
    rintro rfl
    exact hp0 (rank_eq_zero hr)
  have hl := lead_eq_of_mem hp hq hp0 hq0
  cases p with
  | other => exact absurd rfl hp0
  | skipped => rw [eq_of_lead_space hl.symm]
  | lineComment | blockComment => rcases eq_of_lead_slash hl.symm with rfl | rfl <;> rfl
  | doubleQuoted => rw [eq_of_lead_doubleQuote hl.symm]
  | singleQuoted => rw [eq_of_lead_singleQuote hl.symm]
  | template => rw [eq_of_lead_backtick hl.symm]
  | number => rw [eq_of_lead_digit hl.symm]
  | identifier =>
    rcases eq_of_lead_letter hl.symm with rfl | ⟨k, rfl⟩
    · rfl
    · cases hr
  | keyword k =>
    rcases eq_of_lead_letter hl.symm with rfl | ⟨k', rfl⟩
    · cases hr
    · have hk : w = k.text.toList := hp
      rw [keyword_ext (hk.symm.trans hq)]
  | punctuation m =>
    rcases eq_of_lead_mark hl.symm with ⟨h, -⟩ | ⟨h, -⟩ | ⟨h, -⟩ | ⟨h, -⟩ | ⟨m', rfl, -⟩
    · exact absurd h (first_ne m).1
    · exact absurd h (first_ne m).2.1
    · exact absurd h (first_ne m).2.2.1
    · exact absurd h (first_ne m).2.2.2
    · have hm : w = m.text.toList := hp
      rw [punctuation_ext (hm.symm.trans hq)]

theorem Munch.unique (h : Munch s p w) (h' : Munch s q v) : w = v ∧ p.kind w = q.kind v := by
  have hlen : w.length = v.length :=
    Nat.le_antisymm (h'.longest p w h.isPrefix h.mem) (h.longest q v h'.isPrefix h'.mem)
  have hw : w = v := by
    rw [List.prefix_iff_eq_take.1 h.isPrefix, List.prefix_iff_eq_take.1 h'.isPrefix, hlen]
  subst hw
  exact ⟨rfl, kind_eq_of_mem h.mem h'.mem
    (Nat.le_antisymm (h'.strongest p h.mem) (h.strongest q h'.mem))⟩

end Pattern

theorem ofText_cons (c : Char) (r : List Char) :
    ofText (c :: r) = ⟨(classify c r).1, c :: r.take (classify c r).2⟩ ::
      ofText (r.drop (classify c r).2) := by
  rw [ofText]

theorem cut_ofText (s : List Char) : Cut s (ofText s) := by
  fun_induction ofText s with
  | case1 => exact .nil
  | case2 c r kind n hk ih =>
    have hs : c :: r = (c :: r.take n) ++ r.drop n := by simp
    rcases munch_classify c r with ⟨p, hp, hkind⟩ | ⟨hc, -, -, hno⟩
    · rw [hk] at hp hkind
      rw [hs] at hp ⊢
      rw [← show p.kind (c :: r.take n) = kind from hkind]
      exact .piece hp ih
    · rw [hk] at hc
      obtain ⟨rfl, rfl⟩ := Prod.mk.inj hc
      exact .stray hno ih

theorem eq_ofText_of_cut (h : Cut s ls) : ls = ofText s := by
  induction h with
  | nil => rw [ofText]
  | @piece p w r ls hp _ ih =>
    obtain ⟨c, t, rfl, -⟩ := lead_of_mem hp.mem
    rcases munch_classify c (t ++ r) with ⟨q, hq, hkind⟩ | ⟨-, -, -, hno⟩
    · obtain ⟨hw, hk⟩ := hp.unique hq
      have ht : (t ++ r).take (classify c (t ++ r)).2 = t := (List.cons.inj hw).2.symm
      have hr : (t ++ r).drop (classify c (t ++ r)).2 = r := by
        have := List.take_append_drop (classify c (t ++ r)).2 (t ++ r)
        rw [ht] at this
        exact List.append_cancel_left this
      rw [List.cons_append, ofText_cons, hr, ← ih, ← hkind, ← hk, ht]
    · exact absurd hp.mem (hno p _ hp.isPrefix)
  | @stray c r ls hno _ ih =>
    rcases munch_classify c r with ⟨q, hq, -⟩ | ⟨hc, -, -, -⟩
    · exact absurd hq.mem (hno q _ hq.isPrefix)
    · rw [ofText_cons, hc, ih]
      rfl

theorem cut_iff : Cut s ls ↔ ls = ofText s := by
  constructor
  · exact eq_ofText_of_cut
  · rintro rfl
    exact cut_ofText s

/-- What holds of the empty text, and of a text when it holds of what comes after its first piece, holds
of every text. -/
@[elab_as_elim]
theorem cut_induction {P : List Char → Prop} (nil : P [])
    (piece : ∀ p w r, Munch (w ++ r) p w → P r → P (w ++ r))
    (stray : ∀ c r, (∀ p w, w <+: c :: r → w ∉ language p) → P r → P (c :: r))
    (s : List Char) : P s := by
  have hcut := cut_ofText s
  generalize ofText s = ls at hcut
  induction hcut with
  | nil => exact nil
  | piece hm _ ih => exact piece _ _ _ hm ih
  | stray hno _ ih => exact stray _ _ hno ih

end PathAudit
