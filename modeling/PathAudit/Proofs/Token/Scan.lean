import PathAudit.Proofs.Token.Pieces

/-! The tokens and the errors of a source text, each with the bytes of its piece. -/

namespace PathAudit

open Lexeme

variable {c : Char} {w s t : List Char} {n i j : Nat} {l : Lexeme} {ls : List Lexeme}

namespace Lexeme

def startAt (ls : List Lexeme) (i : Nat) : Nat :=
  Text.byteLength ((ls.take i).flatMap text)

/-- The lexemes with the bytes from their start up to the start of the next. -/
def placed (ls : List Lexeme) : List (Lexeme × Text.Span) :=
  ls.mapIdx fun i l => (l, ⟨startAt ls i, startAt ls (i + 1)⟩)

def token? : Lexeme × Text.Span → Option PlacedToken
  | (⟨.token t, _⟩, span) => some ⟨t, span⟩
  | _ => none

def error? : Lexeme × Text.Span → Option Unrecognized
  | (⟨.unknown, w⟩, span) => some ⟨span, String.ofList w⟩
  | _ => none

theorem startAt_cons : startAt (l :: ls) (i + 1) = Text.byteLength l.text + startAt ls i := by
  rw [startAt, List.take_succ_cons, List.flatMap_cons, Text.byteLength_append, startAt]

theorem startAt_mono (h : i ≤ j) : startAt ls i ≤ startAt ls j := by
  obtain ⟨v, hv⟩ := List.take_prefix_take_left h (l := ls)
  rw [startAt, startAt, ← hv, List.flatMap_append, Text.byteLength_append]
  exact Nat.le_add_right _ _

theorem startAt_append (as bs : List Lexeme) :
    startAt (as ++ bs) as.length = Text.byteLength (as.flatMap text) := by
  rw [startAt, List.take_left]

theorem startAt_append_cons (as : List Lexeme) (l : Lexeme) (bs : List Lexeme) :
    startAt (as ++ l :: bs) (as.length + 1) =
      Text.byteLength (as.flatMap text) + Text.byteLength l.text := by
  have := startAt_append (as ++ [l]) bs
  simpa using this

/-- Placing from left to right gives each lexeme the bytes between its start and the next. -/
theorem place_eq (n : Nat) (ls : List Lexeme) : place n ls =
    ls.mapIdx fun i l => (l.kind, l.text, ⟨n + startAt ls i, n + startAt ls (i + 1)⟩) := by
  induction ls generalizing n with
  | nil => rfl
  | cons l ls ih =>
    rw [place, ih, List.mapIdx_cons]
    simp only [startAt_cons, Nat.add_assoc]
    rfl

theorem place_zero (ls : List Lexeme) :
    place 0 ls = (placed ls).map fun p => (p.1.kind, p.1.text, p.2) := by
  simp only [place_eq, placed, Nat.zero_add, List.mapIdx_eq_zipIdx_map, List.map_map]
  rfl

theorem byteLength_pos (h : w ≠ []) : 0 < Text.byteLength w := by
  cases w with
  | nil => exact absurd rfl h
  | cons c w => exact Nat.lt_of_lt_of_le (Char.utf8Size_pos c) (Nat.le_add_right _ _)

theorem mem_placed {span : Text.Span} : (l, span) ∈ placed ls ↔ ∃ as bs, ls = as ++ l :: bs ∧
    span = ⟨Text.byteLength (as.flatMap text),
      Text.byteLength (as.flatMap text) + Text.byteLength l.text⟩ := by
  rw [placed, List.mem_mapIdx]
  constructor
  · rintro ⟨i, hi, he⟩
    cases he
    refine ⟨ls.take i, ls.drop (i + 1), ?_, ?_⟩
    · rw [← List.drop_eq_getElem_cons hi, List.take_append_drop]
    · rw [startAt, startAt, List.take_succ_eq_append_getElem hi, List.flatMap_append,
        Text.byteLength_append, List.flatMap_singleton]
  · rintro ⟨as, bs, rfl, hp⟩
    refine ⟨as.length, by simp, ?_⟩
    rw [startAt_append, startAt_append_cons, ← hp]
    simp

/-- The bytes of the lexemes follow one another without overlap. -/
theorem pairwise_placed (ls : List Lexeme) :
    (placed ls).Pairwise fun p q => p.2.stop ≤ q.2.start := by
  rw [placed, List.pairwise_iff_getElem]
  intro i j hi hj hij
  rw [List.getElem_mapIdx, List.getElem_mapIdx]
  exact startAt_mono hij

theorem eq_of_mem_placed {p q : Lexeme × Text.Span} (hp : p ∈ placed ls) (hq : q ∈ placed ls)
    (hn : p.2.start ≤ n ∧ n < p.2.stop) (hn' : q.2.start ≤ n ∧ n < q.2.stop) : p = q := by
  obtain ⟨i, hi, rfl⟩ := List.getElem_of_mem hp
  obtain ⟨j, hj, rfl⟩ := List.getElem_of_mem hq
  have hpair := List.pairwise_iff_getElem.1 (pairwise_placed ls)
  rcases Nat.lt_trichotomy i j with h | rfl | h
  · have := hpair i j hi hj h
    omega
  · rfl
  · have := hpair j i hj hi h
    omega

theorem exists_piece (h : ls.flatMap text = s ++ c :: t) :
    ∃ as l bs u v, ls = as ++ l :: bs ∧ l.text = u ++ c :: v ∧ s = as.flatMap text ++ u := by
  induction ls generalizing s with
  | nil => simp at h
  | cons l ls ih =>
    -- the character comes after the first lexeme, or inside it
    have later : ∀ s', ls.flatMap text = s' ++ c :: t → s = l.text ++ s' →
        ∃ as l' bs u v, l :: ls = as ++ l' :: bs ∧ l'.text = u ++ c :: v ∧
          s = as.flatMap text ++ u := by
      rintro s' htail rfl
      obtain ⟨as, l', bs, u, v, rfl, hl, rfl⟩ := ih htail
      exact ⟨l :: as, l', bs, u, v, rfl, hl, by simp⟩
    rw [List.flatMap_cons] at h
    rcases List.append_eq_append_iff.1 h with ⟨s', hs, htail⟩ | ⟨u, hu, htail⟩
    · exact later s' htail hs
    · cases u with
      | nil => exact later [] htail.symm (by simpa using hu.symm)
      | cons d u =>
        obtain ⟨rfl, -⟩ := List.cons.inj htail
        exact ⟨[], l, ls, s, u, rfl, hu, rfl⟩

/-- A string, a template or a comment covers the byte. -/
def Held (ls : List Lexeme) (n : Nat) : Prop :=
  ∃ p ∈ placed ls, p.1.kind.encloses ∧ p.2.start ≤ n ∧ n < p.2.stop

end Lexeme

namespace Scan

theorem tokens_ofText (source : String) :
    (ofText source).tokens = (placed (Lexeme.ofText source.toList)).filterMap token? := by
  simp only [ofText, place_zero, List.filterMap_map]
  congr 1
  funext ⟨⟨k, w⟩, span⟩
  cases k <;> rfl

theorem errors_ofText (source : String) :
    (ofText source).errors = (placed (Lexeme.ofText source.toList)).filterMap error? := by
  simp only [ofText, place_zero, List.filterMap_map]
  congr 1
  funext ⟨⟨k, w⟩, span⟩
  cases k <;> rfl

theorem mem_errors {source : String} {e : Unrecognized} : e ∈ (ofText source).errors ↔
    ∃ w span, (⟨.unknown, w⟩, span) ∈ placed (Lexeme.ofText source.toList) ∧
      e = ⟨span, String.ofList w⟩ := by
  rw [errors_ofText, List.mem_filterMap]
  constructor
  · rintro ⟨⟨⟨k, w⟩, span⟩, hp, he⟩
    cases k with
    | unknown => exact ⟨w, span, hp, (Option.some.inj he).symm⟩
    | _ => cases he
  · rintro ⟨w, span, hp, rfl⟩
    exact ⟨_, hp, rfl⟩

/-- The errors are the white space characters that separate no tokens and that nothing holds. -/
theorem mem_errors_iff {source : String} {e : Unrecognized} : e ∈ (ofText source).errors ↔
    ∃ s c t, source.toList = s ++ c :: t ∧ isStray c ∧
      ¬Held (Lexeme.ofText source.toList) (Text.byteLength s) ∧
      e = ⟨⟨Text.byteLength s, Text.byteLength s + c.utf8Size⟩, String.ofList [c]⟩ := by
  have hcut := cut_ofText source.toList
  rw [mem_errors]
  constructor
  · rintro ⟨w, span, hp, rfl⟩
    obtain ⟨as, bs, hls, rfl⟩ := mem_placed.1 hp
    obtain ⟨r, hshape⟩ := (shaped_of_cut hcut).of_mem (l := ⟨.unknown, w⟩) (by simp [hls])
    obtain ⟨c, hc, rfl⟩ := hshape.of_unknown
    refine ⟨as.flatMap text, c, bs.flatMap text, ?_, hc, ?_, by simp⟩
    · rw [← flatMap_text_ofText source.toList, hls]
      simp
    · rintro ⟨q, hq, hk, hn⟩
      have hpos : 0 < c.utf8Size := Char.utf8Size_pos c
      have hsame := eq_of_mem_placed hp hq ⟨Nat.le_refl _, by simpa using hpos⟩ hn
      rw [← hsame] at hk
      cases hk
  · rintro ⟨s, c, t, hsource, hc, hheld, rfl⟩
    obtain ⟨as, l, bs, u, v, hls, hl, rfl⟩ :=
      exists_piece ((flatMap_text_ofText source.toList).trans hsource)
    have hmem : l ∈ Lexeme.ofText source.toList := by simp [hls]
    have hp := mem_placed.2 ⟨as, bs, hls, rfl⟩
    rcases unknown_or_encloses hcut hmem (by simp [hl]) hc with hk | hk
    · obtain ⟨r, hshape⟩ := (shaped_of_cut hcut).of_mem hmem
      rw [hk] at hshape
      obtain ⟨d, -, hd⟩ := hshape.of_unknown
      rw [hd] at hl
      obtain ⟨rfl, rfl⟩ : u = [] ∧ d = c := by
        cases u with
        | nil => exact ⟨rfl, (List.cons.inj hl).1⟩
        | cons => simp at hl
      obtain ⟨k, w⟩ := l
      cases hk
      cases hd
      exact ⟨_, _, hp, by simp⟩
    · refine absurd ⟨_, hp, hk, ?_⟩ hheld
      have hpos : 0 < c.utf8Size := Char.utf8Size_pos c
      simp only [hl, Text.byteLength_append, Text.byteLength_cons]
      omega

/-- What is told of some lexemes with their bytes comes in the order of the bytes. -/
theorem pairwise_filterMap {α : Type} {f : Lexeme × Text.Span → Option α} {span : α → Text.Span}
    (hf : ∀ p a, f p = some a → span a = p.2) (ls : List Lexeme) :
    ((placed ls).filterMap f).Pairwise fun a b => (span a).stop ≤ (span b).start := by
  refine (pairwise_placed ls).filterMap f ?_
  intro p q h a ha b hb
  rwa [hf p a ha, hf q b hb]

theorem pairwise_tokens (source : String) :
    (ofText source).tokens.Pairwise fun a b => a.span.stop ≤ b.span.start := by
  rw [tokens_ofText]
  refine pairwise_filterMap ?_ _
  rintro ⟨⟨k, w⟩, span⟩ a ha
  cases k <;> cases ha
  rfl

theorem pairwise_errors (source : String) :
    (ofText source).errors.Pairwise fun a b => a.span.stop ≤ b.span.start := by
  rw [errors_ofText]
  refine pairwise_filterMap ?_ _
  rintro ⟨⟨k, w⟩, span⟩ a ha
  cases k <;> cases ha
  rfl

/-- A source text is cut in one way into pieces that are each the longest match at their place. The
tokens and the errors are what the pieces are, in order, with the bytes of the pieces; and the
errors are the white space characters that separate no tokens and are in no string, template or
comment. -/
theorem longest_match (source : String) :
    ∃ ls, (∀ ms, Cut source.toList ms ↔ ms = ls) ∧ ls.flatMap text = source.toList ∧ Shaped ls ∧
      (∀ p ∈ placed ls, p.1.text ≠ [] ∧ p.2.start < p.2.stop) ∧
      (placed ls).Pairwise (fun p q => p.2.stop ≤ q.2.start) ∧
      (ofText source).tokens = (placed ls).filterMap token? ∧
      (ofText source).tokens.Pairwise (fun a b => a.span.stop ≤ b.span.start) ∧
      (ofText source).errors = (placed ls).filterMap error? ∧
      (ofText source).errors.Pairwise (fun a b => a.span.stop ≤ b.span.start) ∧
      ∀ e, e ∈ (ofText source).errors ↔ ∃ s c t, source.toList = s ++ c :: t ∧ isStray c ∧
        ¬Held ls (Text.byteLength s) ∧
        e = ⟨⟨Text.byteLength s, Text.byteLength s + c.utf8Size⟩, String.ofList [c]⟩ := by
  have hshaped : Shaped (Lexeme.ofText source.toList) := shaped_of_cut (cut_ofText _)
  refine ⟨Lexeme.ofText source.toList, fun ms => cut_iff, flatMap_text_ofText _, hshaped, ?_,
    pairwise_placed _, tokens_ofText _, pairwise_tokens _, errors_ofText _, pairwise_errors _,
    fun e => mem_errors_iff⟩
  rintro ⟨l, span⟩ hp
  obtain ⟨as, bs, hls, rfl⟩ := mem_placed.1 hp
  obtain ⟨r, hshape⟩ := hshaped.of_mem (l := l) (by simp [hls])
  have hpos := byteLength_pos hshape.ne_nil
  exact ⟨hshape.ne_nil, Nat.lt_add_of_pos_right hpos⟩

end Scan

end PathAudit
