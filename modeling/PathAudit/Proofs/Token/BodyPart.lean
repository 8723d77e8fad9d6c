import PathAudit.Proofs.Token.Payload
import PathAudit.Proofs.Token.Standing

/-! What the body of a quoted literal is made of, whatever it holds. There is one way to cut it into parts,
and the value of the literal is what they add, one after the other. An escape with a payload adds one
character, and it is the one that the payload means unless a plus sign precedes the digits. -/

namespace PathAudit

open Lexeme Pattern Token

inductive BodyPart
  | plain (c : Char)
  /-- A backslash and a character that no payload follows. -/
  | escaped (c : Char)
  /-- An escape with a payload. -/
  | coded (payload : List Char)
  /-- The backslash at the end that is left when a payload takes the one before it. -/
  | lone

/-- Holds when a body is made of some parts. -/
inductive MadeOf : List Char → List BodyPart → Prop
  | nil : MadeOf [] []
  | plain {c r ps} (hc : c ≠ '\\') (h : MadeOf r ps) : MadeOf (c :: r) (.plain c :: ps)
  | escaped {c r ps} (hc : c ≠ 'x' ∧ c ≠ 'u') (h : MadeOf r ps) :
      MadeOf ('\\' :: c :: r) (.escaped c :: ps)
  | coded {s payload r ps} (hs : Collects s payload r) (h : MadeOf r ps) :
      MadeOf ('\\' :: s) (.coded payload :: ps)
  | lone : MadeOf ['\\'] [.lone]

def BodyPart.meaning : BodyPart → List Char
  | plain c => [c]
  | escaped c => if c = '\n' then [] else [(controls.lookup c).getD c]
  | coded payload => [payloadChar payload]
  | lone => []

variable {v : List Char} {c : Char} {ps qs : List BodyPart}

theorem escape_eq_meaning (hc : c ≠ 'x' ∧ c ≠ 'u') (r : List Char) :
    escape c r = ⟨(BodyPart.escaped c).meaning, 0⟩ := by
  by_cases hnewline : c = '\n'
  · subst hnewline
    rfl
  rw [BodyPart.meaning, if_neg hnewline]
  by_cases hcontrol : ∃ m, (c, m) ∈ controls
  · obtain ⟨m, hm⟩ := hcontrol
    have hlookup : ∀ p ∈ controls, controls.lookup p.1 = some p.2 := by decide
    rw [Piece.escape_control hm, hlookup _ hm, Option.getD_some]
  · have hnone : ∀ p ∈ controls, p.1 ≠ c := by
      rintro ⟨_, m⟩ hp rfl
      exact hcontrol ⟨m, hp⟩
    have hlookup : controls.lookup c = none :=
      List.lookup_eq_none_iff.2 fun p hp => bne_iff_ne.2 (hnone p hp).symm
    rw [Piece.escape_itself ⟨by simp [hnewline, hc], hnone⟩, hlookup, Option.getD_none]

namespace MadeOf

/-- Any body is made of parts: what is left behind a payload is shorter. -/
theorem exists_parts (v : List Char) : ∃ ps, MadeOf v ps := by
  induction hlen : v.length using Nat.strongRecOn generalizing v with
  | ind len ih =>
    subst hlen
    rcases v with _ | ⟨c, r⟩
    · exact ⟨[], .nil⟩
    by_cases hc : c = '\\'
    · subst hc
      rcases r with _ | ⟨c, r⟩
      · exact ⟨[.lone], .lone⟩
      have hr : r.length < ('\\' :: c :: r).length := Nat.lt_add_of_pos_right Nat.two_pos
      by_cases hcode : c = 'x' ∨ c = 'u'
      · obtain ⟨payload, rest, hle, hcollects⟩ := Collects.exists_iff hcode r
        obtain ⟨ps, hps⟩ := ih rest.length (Nat.lt_of_le_of_lt hle hr) rest rfl
        exact ⟨.coded payload :: ps, .coded ((hcollects _ _).2 ⟨rfl, rfl⟩) hps⟩
      · obtain ⟨ps, hps⟩ := ih r.length hr r rfl
        exact ⟨.escaped c :: ps, .escaped (not_or.1 hcode) hps⟩
    · obtain ⟨ps, hps⟩ := ih r.length (Nat.lt_succ_self _) r rfl
      exact ⟨.plain c :: ps, .plain hc hps⟩

theorem unique (h : MadeOf v ps) (h' : MadeOf v qs) : ps = qs := by
  induction h generalizing qs with
  | nil =>
    cases h'
    rfl
  | plain hc _ ih =>
    cases h' with
    | plain _ h' => rw [ih h']
    | escaped | coded | lone => exact absurd rfl hc
  | escaped hc _ ih =>
    cases h' with
    | plain hb => exact absurd rfl hb
    | escaped _ h' => rw [ih h']
    | coded hs => exact absurd hs (Collects.not_plain hc)
  | coded hs _ ih =>
    cases h' with
    | plain hb => exact absurd rfl hb
    | escaped hc => exact absurd hs (Collects.not_plain hc)
    | coded hs' h' =>
      obtain ⟨rfl, rfl⟩ := hs.unique hs'
      rw [ih h']
    | lone =>
      obtain ⟨_, _, -, ⟨⟩⟩ := hs.exists_cons
  | lone =>
    cases h' with
    | plain hb => exact absurd rfl hb
    | coded hs =>
      obtain ⟨_, _, -, ⟨⟩⟩ := hs.exists_cons
    | lone => rfl

/-- The value of a literal is what the parts of its body add. -/
theorem literalValue_eq (h : MadeOf v ps) : literalValue v = ps.flatMap BodyPart.meaning := by
  induction h with
  | nil => rw [literalValue, List.flatMap_nil]
  | plain hc _ ih => rw [literalValue_plain hc, ih, List.flatMap_cons]; rfl
  | escaped hc _ ih => rw [literalValue_escape (escape_eq_meaning hc _), ih, List.flatMap_cons]
  | coded hs _ ih => rw [literalValue_coded hs, ih, List.flatMap_cons]; rfl
  | lone => rw [literalValue]; rfl

end MadeOf

/-- A string token is read from a quoted literal, there is one way to cut the body of that into parts, and
the value of the token is what they add, one after the other. An escape with a payload adds one character:
what the payload means without the plus sign that it may begin with. So it is what the payload means exactly
if the payload is not signed. -/
theorem Scan.payload_meant_iff (source : String) {t : PlacedToken} {value : String}
    (ht : t ∈ (ofText source).tokens) (hstring : t.token = .string value) :
    ∃ (quote : Quote) (v : List Char) (parts : List BodyPart),
      (Extent.ofSpan t.span).Marks source (quote.mark :: (v ++ [quote.mark])) ∧
      (∀ ps, MadeOf v ps ↔ ps = parts) ∧
      value.toList = parts.flatMap BodyPart.meaning ∧
      ∀ payload, .coded payload ∈ parts → ∃ c, BodyPart.meaning (.coded payload) = [c] ∧
        Payload.Means (Payload.unsigned payload) c ∧
        (Payload.Means payload c ↔ ¬Payload.IsSigned payload) := by
  obtain ⟨piece, hpiece, -, hmarks, -⟩ := piece_of_mem_tokens ht
  rw [hstring] at hpiece
  obtain ⟨quote, v, -, rfl, hvalue⟩ := exists_literal_of_string hpiece rfl
  obtain ⟨parts, hparts⟩ := MadeOf.exists_parts v
  refine ⟨quote, v, parts, hmarks, fun ps => ⟨fun h => h.unique hparts, fun h => h ▸ hparts⟩, ?_, ?_⟩
  · rw [hvalue, hparts.literalValue_eq]
  · intro payload _
    exact ⟨payloadChar payload, rfl, Payload.means_unsigned payload, Payload.means_payloadChar_iff payload⟩

/-- A literal with a payload of digits, one that is too large and one that takes a backslash. -/
def payloadSource : String := "'\\x4a\\u\x7b110000\x7d\\u  1\\\\'"

theorem payloads_are_meant :
    (⟨.string "J\uFFFD\uFFFD", ⟨0, 23⟩⟩ : PlacedToken) ∈ (Scan.ofText payloadSource).tokens ∧
      ∃ (quote : Quote) (v : List Char) (parts : List BodyPart),
        (Extent.mk 0 23).Marks payloadSource (quote.mark :: (v ++ [quote.mark])) ∧ MadeOf v parts ∧
        ['J', '\uFFFD', '\uFFFD'] = parts.flatMap BodyPart.meaning ∧
        ∀ payload, .coded payload ∈ parts → ∃ c, BodyPart.meaning (.coded payload) = [c] ∧
          (Payload.Means payload c ↔ ¬Payload.IsSigned payload) := by
  have ht : (⟨.string "J\uFFFD\uFFFD", ⟨0, 23⟩⟩ : PlacedToken) ∈ (Scan.ofText payloadSource).tokens := by
    decide +kernel
  obtain ⟨quote, v, parts, hmarks, hparts, hvalue, hcoded⟩ := Scan.payload_meant_iff payloadSource ht rfl
  refine ⟨ht, quote, v, parts, hmarks, (hparts parts).2 rfl, hvalue, fun payload hpayload => ?_⟩
  obtain ⟨c, hc, -, hiff⟩ := hcoded payload hpayload
  exact ⟨c, hc, hiff⟩

/-- A payload with a plus sign denotes no character, and is read as what its digits denote. -/
theorem signed_payload_is_read :
    Scan.ofText "'\\u\x7b+41\x7d'" = ⟨[⟨.string "A", ⟨0, 9⟩⟩], []⟩ ∧
      MadeOf ['\\', 'u', '\x7b', '+', '4', '1', '\x7d'] [.coded ['+', '4', '1']] ∧
      Payload.Means ['+', '4', '1'] '\uFFFD' ∧ ¬Payload.Means ['+', '4', '1'] 'A' := by
  have hcollects : Collects ['u', '\x7b', '+', '4', '1', '\x7d'] ['+', '4', '1'] [] :=
    Collects.braced_iff.2 ⟨by decide, by decide⟩
  have hother : 'A' ≠ '\uFFFD' := by decide
  exact ⟨by decide +kernel, .coded hcollects .nil, Payload.means_plus_iff.2 rfl,
    mt Payload.means_plus_iff.1 hother⟩

end PathAudit
