import Mathlib.Data.List.TakeWhile
import PathAudit.Proofs.Token.Pattern

/-! Numbers. A fraction and an exponent count only when digits follow, and no part of a number can
begin with a character that the part before it could have taken, so taking as much as possible part
by part gives the longest number. -/

namespace PathAudit.Pattern

open Computability Lexeme

variable {p : Char → Bool} {c d : Char} {w v r s : List Char} {n : Nat}

theorem mem_fraction : w ∈ fraction ↔ ∃ f, f ≠ [] ∧ (∀ c ∈ f, isDigitPart c) ∧ w = '.' :: f := by
  rw [fraction, mem_one_mul]
  constructor
  · rintro ⟨c, f, hc, hf, rfl⟩
    obtain ⟨hne, hf⟩ := mem_run.1 hf
    cases beq_iff_eq.1 hc
    exact ⟨f, hne, hf, rfl⟩
  · rintro ⟨f, hne, hf, rfl⟩
    exact ⟨'.', f, by simp, mem_run.2 ⟨hne, hf⟩, rfl⟩

def signLength : List Char → Nat
  | '+' :: _ => 1
  | '-' :: _ => 1
  | _ => 0

theorem exponentLength_cons (h : c = 'e' ∨ c = 'E') : exponentLength (c :: r) =
    match ((r.drop (signLength r)).takeWhile Char.isDigit).length with
    | 0 => 0
    | n => 1 + signLength r + n := by
  unfold exponentLength
  dsimp only
  rw [if_pos h]
  rfl

theorem exponentLength_of_digits (h : c = 'e' ∨ c = 'E')
    (hn : ((r.drop (signLength r)).takeWhile Char.isDigit).length = n + 1) :
    exponentLength (c :: r) = 1 + signLength r + (n + 1) := by
  rw [exponentLength_cons h, hn]
  rfl

theorem mem_exponent : w ∈ exponent ↔ ∃ e g ds, (e = 'e' ∨ e = 'E') ∧
    (g = [] ∨ g = ['+'] ∨ g = ['-']) ∧ ds ≠ [] ∧ (∀ c ∈ ds, c.isDigit) ∧ w = e :: (g ++ ds) := by
  rw [exponent, mem_one_mul]
  constructor
  · rintro ⟨e, t, he, ht, rfl⟩
    obtain ⟨g, hg, ds, hds, rfl⟩ := Language.mem_mul.1 ht
    obtain ⟨hne, hds⟩ := mem_run.1 hds
    refine ⟨e, g, ds, by simpa using he, ?_, hne, hds, rfl⟩
    rcases mem_one_add.1 hg with rfl | ⟨c, hc, rfl⟩
    · exact .inl rfl
    · right
      simpa using hc
  · rintro ⟨e, g, ds, he, hg, hne, hds, rfl⟩
    refine ⟨e, g ++ ds, by simpa using he, ?_, rfl⟩
    refine Language.append_mem_mul (mem_one_add.2 ?_) (mem_run.2 ⟨hne, hds⟩)
    rcases hg with rfl | rfl | rfl
    · exact .inl rfl
    · exact .inr ⟨'+', by simp, rfl⟩
    · exact .inr ⟨'-', by simp, rfl⟩

theorem not_isDigitPart_of_exponent (h : w ∈ exponent) :
    ∃ e t, w = e :: t ∧ ¬ isDigitPart e ∧ e ≠ '.' := by
  obtain ⟨e, g, ds, he, -, -, -, rfl⟩ := mem_exponent.1 h
  refine ⟨e, g ++ ds, rfl, ?_⟩
  rcases he with rfl | rfl <;> decide

theorem takeWhile_run (h : ∀ c ∈ w, p c) : ((w ++ r).takeWhile p).length =
    w.length + (r.takeWhile p).length := by
  rw [List.takeWhile_append_of_pos h, List.length_append]

theorem signLength_of_digit (h : c.isDigit) : signLength (c :: r) = 0 := by
  unfold signLength
  split
  · next he =>
    cases he
    revert h
    decide
  · next he =>
    cases he
    revert h
    decide
  · rfl

theorem exponent_le (h : w ∈ 1 + exponent) : w.length ≤ exponentLength (w ++ r) := by
  rcases mem_one_add.1 h with rfl | h
  · exact Nat.zero_le _
  · obtain ⟨e, g, ds, he, hg, hne, hds, rfl⟩ := mem_exponent.1 h
    obtain ⟨d, ds, rfl⟩ := List.exists_cons_of_ne_nil hne
    have hsign : signLength (g ++ (d :: ds ++ r)) = g.length := by
      rcases hg with rfl | rfl | rfl
      · exact signLength_of_digit (hds d (by simp))
      · rfl
      · rfl
    have hlen : (((g ++ (d :: ds ++ r)).drop (signLength (g ++ (d :: ds ++ r)))).takeWhile
        Char.isDigit).length = ds.length + (r.takeWhile Char.isDigit).length + 1 := by
      rw [hsign, List.drop_left, takeWhile_run hds, List.length_cons]
      omega
    rw [List.cons_append, List.append_assoc, exponentLength_of_digits he hlen, hsign]
    simp only [List.length_cons, List.length_append]
    omega

theorem fractionLength_point : fractionLength ('.' :: r) =
    match (r.takeWhile isDigitPart).length with
    | 0 => 0
    | n => n + 1 := rfl

theorem fractionLength_plain (h : c ≠ '.') : fractionLength (c :: r) = 0 := by
  rw [fractionLength]
  intro _ hr
  exact h (List.cons.inj hr).1

theorem takeWhile_exponent (h : w ∈ exponent) : (w ++ r).takeWhile isDigitPart = [] := by
  obtain ⟨e, t, rfl, he, -⟩ := not_isDigitPart_of_exponent h
  simp [he]

theorem fraction_le (hv : v ∈ 1 + fraction) (hw : w ∈ 1 + exponent) :
    (v ++ w).length ≤ fractionLength (v ++ w ++ r) +
      exponentLength ((v ++ w ++ r).drop (fractionLength (v ++ w ++ r))) := by
  rcases mem_one_add.1 hv with rfl | hv
  · rcases mem_one_add.1 hw with rfl | hw'
    · exact Nat.zero_le _
    · obtain ⟨e, t, rfl, -, he⟩ := not_isDigitPart_of_exponent hw'
      rw [List.nil_append, List.cons_append, fractionLength_plain he, List.drop_zero, Nat.zero_add]
      exact exponent_le hw
  · obtain ⟨f, hne, hf, rfl⟩ := mem_fraction.1 hv
    have hpos : 0 < f.length := List.length_pos_iff.2 hne
    have hlen : fractionLength ('.' :: f ++ w ++ r) =
        f.length + ((w ++ r).takeWhile isDigitPart).length + 1 := by
      rw [List.cons_append, List.cons_append, fractionLength_point, List.append_assoc,
        takeWhile_run hf]
      split
      · omega
      · rfl
    rw [hlen]
    rcases mem_one_add.1 hw with rfl | hw'
    · simp only [List.append_nil, List.length_cons]
      omega
    · rw [takeWhile_exponent hw', List.length_nil, Nat.add_zero, List.cons_append, List.cons_append,
        List.drop_succ_cons, List.append_assoc, List.drop_left, List.length_cons,
        List.length_append]
      have := exponent_le (r := r) hw
      omega

theorem takeWhile_fraction (hv : v ∈ 1 + fraction) (hw : w ∈ 1 + exponent) (h : v ++ w ≠ []) :
    (v ++ w ++ r).takeWhile isDigitPart = [] := by
  rcases mem_one_add.1 hv with rfl | hv
  · rcases mem_one_add.1 hw with rfl | hw
    · exact absurd rfl h
    · exact takeWhile_exponent hw
  · obtain ⟨f, -, -, rfl⟩ := mem_fraction.1 hv
    rfl

theorem numberLength_eq : numberLength r = (r.takeWhile isDigitPart).length +
    (fractionLength (r.drop (r.takeWhile isDigitPart).length) +
      exponentLength ((r.drop (r.takeWhile isDigitPart).length).drop
        (fractionLength (r.drop (r.takeWhile isDigitPart).length)))) := by
  rw [numberLength, List.drop_drop, Nat.add_assoc]

theorem number_le (hs : ∀ c ∈ s, isDigitPart c) (hv : v ∈ 1 + fraction) (hw : w ∈ 1 + exponent) :
    (s ++ (v ++ w)).length ≤ numberLength (s ++ (v ++ w) ++ r) := by
  rw [numberLength_eq, List.append_assoc, takeWhile_run hs, List.length_append]
  by_cases h : v ++ w = []
  · rw [h, List.length_nil]
    omega
  · rw [takeWhile_fraction hv hw h, List.length_nil, Nat.add_zero, List.drop_left]
    have := fraction_le (r := r) hv hw
    omega

theorem mem_number : w ∈ language number ↔ ∃ d s v u, d.isDigit ∧ (∀ c ∈ s, isDigitPart c) ∧
    v ∈ 1 + fraction ∧ u ∈ 1 + exponent ∧ w = d :: (s ++ (v ++ u)) := by
  rw [language, mem_one_mul]
  constructor
  · rintro ⟨d, t, hd, ht, rfl⟩
    obtain ⟨s, hs, t', ht', rfl⟩ := Language.mem_mul.1 ht
    obtain ⟨v, hv, u, hu, rfl⟩ := Language.mem_mul.1 ht'
    exact ⟨d, s, v, u, hd, mem_kstar_one.1 hs, hv, hu, rfl⟩
  · rintro ⟨d, s, v, u, hd, hs, hv, hu, rfl⟩
    exact ⟨d, _, hd, Language.append_mem_mul (mem_kstar_one.2 hs) (Language.append_mem_mul hv hu), rfl⟩

theorem take_length_takeWhile (p : Char → Bool) (r : List Char) :
    r.take (r.takeWhile p).length = r.takeWhile p :=
  List.prefix_iff_eq_take.1 (List.takeWhile_prefix p) |>.symm

theorem take_signLength (r : List Char) : r.take (signLength r) = [] ∨
    r.take (signLength r) = ['+'] ∨ r.take (signLength r) = ['-'] := by
  fun_cases signLength r with
  | case1 => exact .inr (.inl rfl)
  | case2 => exact .inr (.inr rfl)
  | case3 => exact .inl rfl

theorem take_exponentLength (r : List Char) : r.take (exponentLength r) ∈ 1 + exponent := by
  rw [mem_one_add]
  cases r with
  | nil => exact .inl rfl
  | cons e r =>
    by_cases he : e = 'e' ∨ e = 'E'
    · cases hn : ((r.drop (signLength r)).takeWhile Char.isDigit).length with
      | zero =>
        left
        rw [exponentLength_cons he, hn]
        rfl
      | succ n =>
        right
        rw [exponentLength_of_digits he hn, Nat.add_assoc, Nat.add_comm, List.take_succ_cons,
          List.take_add, ← hn, take_length_takeWhile]
        refine mem_exponent.2 ⟨e, _, _, he, take_signLength r, ?_, ?_, rfl⟩
        · intro h
          rw [h] at hn
          cases hn
        · exact fun c hc => List.mem_takeWhile_imp hc
    · left
      unfold exponentLength
      dsimp only
      rw [if_neg he]
      rfl

theorem take_fractionLength (r : List Char) : r.take (fractionLength r) ∈ 1 + fraction := by
  rw [mem_one_add]
  unfold fractionLength
  split
  · next r =>
    split
    · exact .inl rfl
    · next h =>
      right
      rw [List.take_succ_cons, take_length_takeWhile]
      refine mem_fraction.2 ⟨_, ?_, ?_, rfl⟩
      · intro hnil
        exact h (by rw [hnil]; rfl)
      · intro c hc
        exact List.mem_takeWhile_imp hc
  · exact .inl rfl

theorem take_numberLength (hd : d.isDigit) : d :: r.take (numberLength r) ∈ language number := by
  rw [numberLength_eq, List.take_add, take_length_takeWhile, List.take_add]
  refine mem_number.2 ⟨d, _, _, _, hd, ?_, take_fractionLength _, take_exponentLength _, rfl⟩
  intro c hc
  exact List.mem_takeWhile_imp hc

end PathAudit.Pattern
