import PathAudit.Proofs.Token.Escapes

/-! The payloads of escapes. A payload of hexadecimal digits denotes a character, and any other should stand
for the replacement character. The reader of numbers takes digits and nothing else, but for one plus sign
before them, so a payload with such a sign stands for the character that the digits denote. -/

namespace PathAudit

open Token

variable {payload s : List Char} {c d : Char} {n m : Nat} {ds : List HexDigit}

namespace HexDigit

theorem toNat_char (value : Fin 16) (capital : Bool) : (char ⟨value, capital⟩).toNat =
    if value.val < 10 then value.val + 48 else if capital then value.val + 55 else value.val + 87 := by
  revert value capital
  decide

theorem range_of_hexDigit? (h : hexDigit? c = some n) : (48 ≤ c.toNat ∧ c.toNat ≤ 57) ∨
    (97 ≤ c.toNat ∧ c.toNat ≤ 102) ∨ (65 ≤ c.toNat ∧ c.toNat ≤ 70) := by
  unfold hexDigit? at h
  split at h
  · next hd => exact .inl (Pattern.isDigit_iff.1 hd)
  · split at h
    · next hl => exact .inr (.inl hl)
    · split at h
      · next hu => exact .inr (.inr hu)
      · cases h

theorem exists_char_eq (h : hexDigit? c = some n) : ∃ d : HexDigit, d.char = c := by
  simp only [← Char.toNat_inj]
  rcases range_of_hexDigit? h with hdigit | hsmall | hcapital
  · refine ⟨⟨⟨c.toNat - 48, by omega⟩, false⟩, ?_⟩
    have hvalue : c.toNat - 48 < 10 := by omega
    rw [toNat_char, if_pos hvalue]
    exact Nat.sub_add_cancel hdigit.1
  · refine ⟨⟨⟨c.toNat - 87, by omega⟩, false⟩, ?_⟩
    have hvalue : ¬c.toNat - 87 < 10 := by omega
    rw [toNat_char, if_neg hvalue, if_neg Bool.false_ne_true]
    exact Nat.sub_add_cancel (by omega)
  · refine ⟨⟨⟨c.toNat - 55, by omega⟩, true⟩, ?_⟩
    have hvalue : ¬c.toNat - 55 < 10 := by omega
    rw [toNat_char, if_neg hvalue, if_pos rfl]
    exact Nat.sub_add_cancel (by omega)

theorem exists_chars (h : s.foldlM (fun n c => (hexDigit? c).map (16 * n + ·)) n = some m) :
    ∃ ds : List HexDigit, s = ds.map char := by
  induction s generalizing n with
  | nil => exact ⟨[], rfl⟩
  | cons c s ih =>
    obtain ⟨k, hk, hs⟩ := Option.bind_eq_some_iff.1 h
    obtain ⟨v, hv, -⟩ := Option.map_eq_some_iff.1 hk
    obtain ⟨d, rfl⟩ := exists_char_eq hv
    obtain ⟨ds, rfl⟩ := ih hs
    exact ⟨d :: ds, rfl⟩

end HexDigit

open HexDigit

namespace Payload

/-- Holds when a payload is a run of hexadecimal digits, not empty, that make the code point of `c`. -/
def Denotes (payload : List Char) (c : Char) : Prop :=
  ∃ ds : List HexDigit, ds ≠ [] ∧ payload = ds.map char ∧ number ds = c.toNat

/-- Holds when `c` is the character that a payload denotes, or the replacement character and it denotes
none. -/
def Means (payload : List Char) (c : Char) : Prop :=
  Denotes payload c ∨ c = '\uFFFD' ∧ ∀ d, ¬Denotes payload d

/-- Holds when a payload is a plus sign and what denotes another character than the replacement
character. -/
def IsSigned (payload : List Char) : Prop :=
  ∃ digits c, payload = '+' :: digits ∧ Denotes digits c ∧ c ≠ '\uFFFD'

def unsigned : List Char → List Char
  | '+' :: r => r
  | s => s

theorem unsigned_of_ne (h : ∀ r, payload ≠ '+' :: r) : unsigned payload = payload := by
  unfold unsigned
  split
  · next r => exact absurd rfl (h r)
  · rfl

theorem plus_ne_chars (ds : List HexDigit) (r : List Char) : '+' :: r ≠ ds.map char := by
  intro h
  obtain ⟨d, -, hd⟩ := List.mem_map.1 (h ▸ List.mem_cons_self : '+' ∈ ds.map char)
  exact d.char_ne '+' (by decide) hd

/-- A payload has a value exactly if it is a run of digits, with or without a plus sign. -/
theorem hexValue?_eq_some_iff : hexValue? payload = some n ↔
    ∃ ds : List HexDigit, ds ≠ [] ∧ unsigned payload = ds.map char ∧ number ds = n := by
  have hvalue : hexValue? payload = if (unsigned payload).isEmpty then none
      else (unsigned payload).foldlM (fun n c => (hexDigit? c).map (16 * n + ·)) 0 := rfl
  rw [hvalue]
  constructor
  · intro h
    split at h
    · cases h
    · next hne =>
      obtain ⟨ds, hds⟩ := exists_chars h
      rw [hds, foldlM_chars, ← number_eq_foldl] at h
      refine ⟨ds, ?_, hds, Option.some.inj h⟩
      rintro rfl
      exact hne (by rw [hds]; rfl)
  · rintro ⟨ds, hne, hds, rfl⟩
    rw [hds, if_neg (by simpa using hne), foldlM_chars, number_eq_foldl]

theorem denotes_chars_iff (h : ds ≠ []) : Denotes (ds.map char) c ↔ number ds = c.toNat := by
  constructor
  · rintro ⟨ds', hne, hds, hn⟩
    have hvalue := hexValue?_chars h
    rw [hds, hexValue?_chars hne] at hvalue
    rw [← hn, Option.some.inj hvalue]
  · exact fun hn => ⟨ds, h, rfl, hn⟩

theorem Denotes.unique (hc : Denotes payload c) (hd : Denotes payload d) : c = d := by
  obtain ⟨ds, hne, rfl, hn⟩ := hc
  exact Char.toNat_inj.1 (hn.symm.trans ((denotes_chars_iff hne).1 hd))

theorem means_scalarChar (h : ds ≠ []) : Means (ds.map char) (scalarChar (number ds)) := by
  by_cases hvalid : (number ds).isValidChar
  · left
    rw [denotes_chars_iff h, scalarChar, if_pos hvalid, Char.ofNat, dif_pos hvalid]
    rfl
  · refine .inr ⟨if_neg hvalid, fun d hd => hvalid ?_⟩
    rw [(denotes_chars_iff h).1 hd]
    exact d.valid

theorem Means.unique (hc : Means payload c) (hd : Means payload d) : c = d := by
  rcases hc with hc | ⟨rfl, hnone⟩
  · rcases hd with hd | ⟨-, hnone⟩
    · exact hc.unique hd
    · exact absurd hc (hnone c)
  · rcases hd with hd | ⟨rfl, -⟩
    · exact absurd hd (hnone d)
    · rfl

/-- A payload is read as what it means without its plus sign. -/
theorem means_unsigned (payload : List Char) : Means (unsigned payload) (payloadChar payload) := by
  unfold payloadChar
  split
  · next n hn =>
    obtain ⟨ds, hne, hds, rfl⟩ := hexValue?_eq_some_iff.1 hn
    rw [hds]
    exact means_scalarChar hne
  · next hnone =>
    refine .inr ⟨rfl, ?_⟩
    rintro d ⟨ds, hne, hds, hn⟩
    rw [hexValue?_eq_some_iff.2 ⟨ds, hne, hds, hn⟩] at hnone
    cases hnone

theorem means_plus_iff : Means ('+' :: s) c ↔ c = '\uFFFD' := by
  have hnone : ∀ d, ¬Denotes ('+' :: s) d := by
    rintro d ⟨ds, -, hds, -⟩
    exact plus_ne_chars ds s hds
  simp [Means, hnone]

/-- A payload is read as what it means exactly if it is not signed. -/
theorem means_payloadChar_iff (payload : List Char) :
    Means payload (payloadChar payload) ↔ ¬IsSigned payload := by
  have hread := means_unsigned payload
  by_cases hplus : ∃ digits, payload = '+' :: digits
  · obtain ⟨digits, rfl⟩ := hplus
    rw [means_plus_iff]
    constructor
    · rintro hc ⟨_, d, ⟨⟩, hd, hne⟩
      exact hne ((Means.unique (.inl hd) hread).trans hc)
    · intro hsigned
      rcases hread with hread | ⟨hc, -⟩
      · exact by_contra fun hne => hsigned ⟨digits, _, rfl, hread, hne⟩
      · exact hc
  · rw [not_exists] at hplus
    rw [unsigned_of_ne hplus] at hread
    refine iff_of_true hread ?_
    rintro ⟨digits, d, hd, -⟩
    exact hplus digits hd

end Payload

end PathAudit
