import Mathlib.Data.List.TakeWhile
import PathAudit.Token.Escape

/-! The payloads of escapes, as they are cut off. After `x` and `u` so many characters belong to the escape
as it takes, or fewer if the literal ends; after `u` and an opening brace all of them do, up to the brace that
closes it or to the end. What the characters are does not matter, so one may be a backslash. -/

namespace PathAudit

open Token

/-- Holds when `w` is `n` characters, or all there is and fewer. -/
def UpTo (n : Nat) (w rest : List Char) : Prop :=
  w.length = n ∨ w.length < n ∧ rest = []

/-- Holds when a text that comes after a backslash is an escape with that payload, and a rest. -/
inductive Collects : List Char → List Char → List Char → Prop
  | byte {payload rest} (h : UpTo 2 payload rest) : Collects ('x' :: (payload ++ rest)) payload rest
  | unit {payload rest} (hbrace : ∀ r, payload ++ rest ≠ '\x7b' :: r) (h : UpTo 4 payload rest) :
      Collects ('u' :: (payload ++ rest)) payload rest
  | braced {payload rest} (h : '\x7d' ∉ payload) :
      Collects ('u' :: '\x7b' :: (payload ++ '\x7d' :: rest)) payload rest
  | unclosed {payload} (h : '\x7d' ∉ payload) : Collects ('u' :: '\x7b' :: payload) payload []

variable {payload rest r s w : List Char} {c : Char} {n : Nat}

theorem UpTo.take_drop (h : UpTo n w rest) : w = (w ++ rest).take n ∧ rest = (w ++ rest).drop n := by
  rcases h with rfl | ⟨hlt, rfl⟩
  · exact ⟨List.take_left.symm, List.drop_left.symm⟩
  · rw [List.append_nil, List.take_of_length_le (Nat.le_of_lt hlt)]
    exact ⟨rfl, (List.drop_of_length_le (Nat.le_of_lt hlt)).symm⟩

theorem upTo_take (n : Nat) (s : List Char) : UpTo n (s.take n) (s.drop n) := by
  rcases Nat.lt_or_ge s.length n with hlt | hle
  · right
    rw [List.take_of_length_le (Nat.le_of_lt hlt)]
    exact ⟨hlt, List.drop_of_length_le (Nat.le_of_lt hlt)⟩
  · exact .inl (List.length_take_of_le hle)

namespace Collects

theorem exists_cons (h : Collects s payload rest) : ∃ c r, (c = 'x' ∨ c = 'u') ∧ s = c :: r := by
  cases h with
  | byte => exact ⟨'x', _, .inl rfl, rfl⟩
  | unit | braced | unclosed => exact ⟨'u', _, .inr rfl, rfl⟩

theorem not_plain (hc : c ≠ 'x' ∧ c ≠ 'u') : ¬Collects (c :: s) payload rest := by
  intro h
  obtain ⟨_, _, hcode, ⟨⟩⟩ := h.exists_cons
  exact hcode.elim hc.1 hc.2

theorem byte_iff : Collects ('x' :: s) payload rest ↔ payload = s.take 2 ∧ rest = s.drop 2 := by
  constructor
  · intro h
    cases h with
    | byte h => exact h.take_drop
  · rintro ⟨rfl, rfl⟩
    have h := byte (upTo_take 2 s)
    rwa [List.take_append_drop] at h

theorem unit_iff (hbrace : ∀ r, s ≠ '\x7b' :: r) :
    Collects ('u' :: s) payload rest ↔ payload = s.take 4 ∧ rest = s.drop 4 := by
  constructor
  · intro h
    cases h with
    | unit _ h => exact h.take_drop
    | braced => exact absurd rfl (hbrace _)
    | unclosed => exact absurd rfl (hbrace _)
  · rintro ⟨rfl, rfl⟩
    have h := unit (by rwa [List.take_append_drop]) (upTo_take 4 s)
    rwa [List.take_append_drop] at h

theorem takeWhile_closed (h : '\x7d' ∉ w) (r : List Char) :
    (w ++ '\x7d' :: r).takeWhile (· != '\x7d') = w := by
  rw [List.takeWhile_append_of_pos fun _ hc => bne_iff_ne.2 (ne_of_mem_of_not_mem hc h),
    List.takeWhile_cons_of_neg (by decide), List.append_nil]

theorem takeWhile_unclosed (h : '\x7d' ∉ w) : w.takeWhile (· != '\x7d') = w :=
  List.takeWhile_eq_self_iff.2 fun _ hc => bne_iff_ne.2 (ne_of_mem_of_not_mem hc h)

theorem braced_iff : Collects ('u' :: '\x7b' :: s) payload rest ↔
    payload = s.takeWhile (· != '\x7d') ∧ rest = s.drop ((s.takeWhile (· != '\x7d')).length + 1) := by
  constructor
  · intro h
    generalize hs : '\x7b' :: s = t at h
    cases h with
    | unit hbrace => exact absurd hs.symm (hbrace s)
    | braced h =>
      cases hs
      simp [takeWhile_closed h]
    | unclosed h =>
      cases hs
      simp [takeWhile_unclosed h]
  · rintro ⟨rfl, rfl⟩
    by_cases hclosed : '\x7d' ∈ s
    · obtain ⟨w, r, rfl, hw⟩ := List.eq_append_cons_of_mem hclosed
      simpa [takeWhile_closed hw] using braced hw
    · have hdrop : s.drop (s.length + 1) = [] := List.drop_of_length_le (Nat.le_succ _)
      rw [takeWhile_unclosed hclosed, hdrop]
      exact unclosed hclosed

/-- An escape has one payload, and one rest is left. -/
theorem exists_iff (hc : c = 'x' ∨ c = 'u') (s : List Char) : ∃ w r, r.length ≤ s.length ∧
    ∀ payload rest, Collects (c :: s) payload rest ↔ payload = w ∧ rest = r := by
  have hle (n : Nat) (s : List Char) : (s.drop n).length ≤ s.length :=
    (List.drop_sublist n s).length_le
  rcases hc with rfl | rfl
  · exact ⟨_, _, hle 2 s, fun _ _ => byte_iff⟩
  · by_cases hbrace : ∃ r, s = '\x7b' :: r
    · obtain ⟨r, rfl⟩ := hbrace
      exact ⟨_, _, (hle _ r).trans (Nat.le_succ _), fun _ _ => braced_iff⟩
    · exact ⟨_, _, hle 4 s, fun _ _ => unit_iff (not_exists.1 hbrace)⟩

theorem unique (h : Collects s payload rest) (h' : Collects s w r) : payload = w ∧ rest = r := by
  obtain ⟨c, s, hc, rfl⟩ := h.exists_cons
  obtain ⟨_, _, -, hcollects⟩ := exists_iff hc s
  obtain ⟨rfl, rfl⟩ := (hcollects _ _).1 h
  obtain ⟨rfl, rfl⟩ := (hcollects _ _).1 h'
  exact ⟨rfl, rfl⟩

end Collects

namespace Token

theorem literalValue_coded (h : Collects s payload rest) :
    literalValue ('\\' :: s) = payloadChar payload :: literalValue rest := by
  obtain ⟨c, s, hc, rfl⟩ := h.exists_cons
  rw [literalValue]
  rcases hc with rfl | rfl
  · obtain ⟨rfl, rfl⟩ := Collects.byte_iff.1 h
    rfl
  · by_cases hbrace : ∃ r, s = '\x7b' :: r
    · obtain ⟨r, rfl⟩ := hbrace
      obtain ⟨rfl, rfl⟩ := Collects.braced_iff.1 h
      rfl
    · rw [not_exists] at hbrace
      obtain ⟨rfl, rfl⟩ := (Collects.unit_iff hbrace).1 h
      rw [escape]
      · rfl
      · exact hbrace

end Token

end PathAudit
