import PathAudit.Declaration
import PathAudit.Proofs.Syntax.Follow
import PathAudit.Proofs.Syntax.Outline
import PathAudit.Proofs.Token.Standing

/-! Which declarators of a statement are read. An initializer is read up to the first comma, semicolon
or brace, whether brackets are open there or not. So the declarators of a statement are read as they
are written up to the first whose initializer holds one of these, and the others are lost. -/

namespace PathAudit

open PathAudit.Parser

/-- A declarator as it is written: its name, the tokens of its type and those of its initializer.
The places are those of the token before the name, of the colon and of the equals sign. -/
structure Clause where
  lead : Text.Span
  name : Identifier
  type : Option (Text.Span × List PlacedToken)
  value : Option (Text.Span × List PlacedToken)

namespace Clause

variable {c : Clause} {cs : List Clause} {r : List PlacedToken}

def part (mark : Punctuation) : Option (Text.Span × List PlacedToken) → List PlacedToken
  | none => []
  | some (span, ts) => ⟨.punctuation mark, span⟩ :: ts

@[simp] theorem part_none (mark : Punctuation) : part mark none = [] := rfl

@[simp] theorem part_some (mark : Punctuation) (span : Text.Span) (ts : List PlacedToken) :
    part mark (some (span, ts)) = ⟨.punctuation mark, span⟩ :: ts := rfl

def body (c : Clause) : List PlacedToken :=
  ⟨.identifier c.name.name, c.name.span⟩ :: (part .colon c.type ++ part .equals c.value)

def tokens (lead : Token) (c : Clause) : List PlacedToken :=
  ⟨lead, c.lead⟩ :: c.body

def tail (cs : List Clause) : List PlacedToken :=
  cs.flatMap (tokens (.punctuation .comma))

def statement (word : Keyword) (first : Clause) (more : List Clause) (stop : Text.Span) :
    List PlacedToken :=
  first.tokens (.keyword word) ++ tail more ++ [⟨.punctuation .semicolon, stop⟩]

def IsTyped (c : Clause) : Prop :=
  ∀ span ts, c.type = some (span, ts) → ∃ t, typeExpr ts = some (t, ts.length)

def declarator (c : Clause) : Declarator where
  name := c.name
  annotation := c.type.bind fun (_, ts) => (typeExpr ts).map Prod.fst
  initializer := c.value.map fun (_, ts) => (initializer ts).1

/-- What is left of the initializer where its reader stops. -/
def left (c : Clause) : List PlacedToken :=
  (c.value.map fun (_, ts) => ts.drop (initializer ts).2).getD []

theorem ascription_body (hc : c.IsTyped) (hr : Halts r) :
    ascription (part .colon c.type ++ (part .equals c.value ++ r)) =
      (c.declarator.annotation, (part .colon c.type).length) := by
  have hnext : Avoids (.colon :: typeMarks) ((part .equals c.value ++ r).map PlacedToken.token) := by
    cases c.value with
    | none => exact hr.avoids (by decide) (by decide)
    | some e => exact avoids_cons.2 (by decide)
  unfold declarator
  cases htype : c.type with
  | none =>
    rw [part_none, List.nil_append, ascription]
    · rfl
    · intro s r' hcolon
      exact ne_of_head rfl (hnext .colon (by simp)) _ _ hcolon
  | some st =>
    obtain ⟨span, ts⟩ := st
    obtain ⟨t, ht⟩ := hc span ts htype
    have hread := typeExpr_append ht (hnext.mono fun _ hm => List.mem_cons_of_mem _ hm)
    simp only [part_some, List.cons_append, ascription, hread, Option.bind_some, ht, Option.map_some,
      List.length_cons]

theorem assignment_body (hr : Halts r) :
    ∃ n, assignment (part .equals c.value ++ r) = (c.declarator.initializer, n) ∧
      (part .equals c.value ++ r).drop n = c.left ++ r := by
  unfold declarator left
  cases hvalue : c.value with
  | none =>
    refine ⟨0, ?_, rfl⟩
    rw [part_none, List.nil_append, assignment]
    · rfl
    · intro s r' hequals
      have hnext : Avoids [.equals] (r.map PlacedToken.token) := hr.avoids (by decide) (by decide)
      exact ne_of_head rfl (hnext .equals (by simp)) _ _ hequals
  | some st =>
    obtain ⟨span, ts⟩ := st
    refine ⟨(initializer ts).2 + 1, ?_, ?_⟩
    · rw [part_some, List.cons_append, assignment, initializer_append hr.atInitializerEnd]
      rfl
    · rw [part_some, List.cons_append, List.drop_succ_cons,
        List.drop_append_of_le_length (covers_initializer ts).le]
      rfl

/-- A declarator is read as it is written, up to what is left of its initializer. -/
theorem declarator_body (hc : c.IsTyped) (hr : Halts r) :
    ∃ n, Parser.declarator (c.body ++ r) = some (c.declarator, n) ∧
      (c.body ++ r).drop n = c.left ++ r := by
  obtain ⟨n, hassign, hleft⟩ := assignment_body (c := c) hr
  refine ⟨1 + (part .colon c.type).length + n, ?_, ?_⟩
  · rw [body, List.cons_append, List.append_assoc, Parser.declarator, ascription_body hc hr]
    simp only [List.drop_left, hassign]
    rfl
  · rw [body, List.cons_append, List.append_assoc, Nat.add_assoc, Nat.add_comm 1,
      List.drop_succ_cons, ← List.drop_drop, List.drop_left, hleft]

theorem declarators_clause (hc : c.IsTyped) (hr : Halts r) :
    (declarators (c.tokens (.punctuation .comma) ++ r)).1 =
      c.declarator :: (declarators (c.left ++ r)).1 := by
  obtain ⟨n, hread, hleft⟩ := declarator_body hc hr
  rw [tokens, List.cons_append, declarators, hread]
  simp only [hleft]

theorem tail_cons (c : Clause) (cs : List Clause) :
    tail (c :: cs) = c.tokens (.punctuation .comma) ++ tail cs :=
  List.flatMap_cons

theorem tail_append (cs ds : List Clause) : tail (cs ++ ds) = tail cs ++ tail ds :=
  List.flatMap_append

theorem halts_tail (cs : List Clause) (hr : Halts r) : Halts (tail cs ++ r) := by
  cases cs with
  | nil => exact hr
  | cons c cs =>
    rw [tail_cons, tokens]
    exact .inl rfl

/-- Declarators are read one after the other as long as nothing is left of their initializers. -/
theorem declarators_tail (hcs : ∀ c ∈ cs, c.IsTyped) (hleft : ∀ c ∈ cs, c.left = []) (hr : Halts r) :
    (declarators (tail cs ++ r)).1 = cs.map declarator ++ (declarators r).1 := by
  induction cs with
  | nil => rfl
  | cons c cs ih =>
    rw [tail_cons, List.append_assoc, declarators_clause (hcs c (by simp)) (halts_tail cs hr),
      hleft c (by simp), List.nil_append, List.map_cons, List.cons_append,
      ih (fun b hb => hcs b (by simp [hb])) (fun b hb => hleft b (by simp [hb]))]

theorem left_eq_nil_iff : c.left = [] ↔ ∀ span ts, c.value = some (span, ts) → IsWhole ts := by
  unfold left
  cases c.value with
  | none => simp
  | some st =>
    obtain ⟨span, ts⟩ := st
    simpa using drop_initializer_eq_nil_iff ts

/-- Up to the first initializer that leaves something, declarators are read as they are written. -/
theorem declarators_upTo {upTo rest : List Clause} (hcs : ∀ b ∈ upTo ++ c :: rest, b.IsTyped)
    (hleft : ∀ b ∈ upTo, b.left = []) (hr : Halts r) :
    (upTo ++ [c]).map declarator <+: (declarators (tail (upTo ++ c :: rest) ++ r)).1 := by
  have hc : c.IsTyped := hcs c (by simp)
  have hupTo : ∀ b ∈ upTo, b.IsTyped := fun b hb => hcs b (List.mem_append_left _ hb)
  rw [tail_append, List.append_assoc, declarators_tail hupTo hleft (halts_tail _ hr), tail_cons,
    List.append_assoc, declarators_clause hc (halts_tail _ hr), List.map_append]
  exact (List.prefix_append_right_inj _).2 (by simp)

def Continues (ts : List PlacedToken) : Prop :=
  ∃ comma name span r, ts = ⟨.punctuation .comma, comma⟩ :: ⟨.identifier name, span⟩ :: r

theorem name_of_continues (comma : Text.Span) (name : String) (span : Text.Span)
    (r : List PlacedToken) : ∃ more,
      (declarators (⟨.punctuation .comma, comma⟩ :: ⟨.identifier name, span⟩ :: r)).1.map
        Declarator.name = ⟨name, span⟩ :: more := by
  obtain ⟨d, n, hread, hname⟩ :
      ∃ d n, Parser.declarator (⟨.identifier name, span⟩ :: r) = some (d, n) ∧ d.name = ⟨name, span⟩ :=
    ⟨_, _, rfl, rfl⟩
  rw [declarators, hread, ← hname]
  exact ⟨_, rfl⟩

theorem continues_of_declarators {ts : List PlacedToken} (h : (declarators ts).1 ≠ []) :
    Continues ts := by
  fun_cases declarators ts with
  | case1 s r hnone => simp [declarators, hnone] at h
  | case2 s r d n hread =>
    obtain ⟨name, span, r', rfl⟩ := (isSome_declarator r).1 (by rw [hread]; rfl)
    exact ⟨s, name, span, r', rfl⟩
  | case3 hts => simp_all [declarators]

theorem continues_of_append {ts : List PlacedToken} (hne : ts ≠ []) (hr : Halts r)
    (h : Continues (ts ++ r)) : Continues ts := by
  obtain ⟨comma, name, span, l, he⟩ := h
  match ts with
  | [] => exact absurd rfl hne
  | [t] =>
    obtain ⟨-, rfl⟩ := List.cons.inj he
    rcases hr with hr | hr <;> cases hr
  | t :: u :: ts =>
    rw [List.cons_append, List.cons_append] at he
    cases he
    exact ⟨comma, name, span, ts, rfl⟩

/-- Where something is left of an initializer, the statement ends, unless it goes on from there. -/
theorem declarators_left_eq_nil (hleft : c.left ≠ []) (hr : Halts r) :
    (declarators (c.left ++ r)).1 = [] ↔ ¬Continues c.left := by
  constructor
  · rintro hnil ⟨comma, name, span, l, he⟩
    obtain ⟨more, hread⟩ := name_of_continues comma name span (l ++ r)
    rw [he, List.cons_append, List.cons_append] at hnil
    rw [hnil] at hread
    cases hread
  · intro hends
    by_contra hne
    exact hends (continues_of_append hleft hr (continues_of_declarators hne))

theorem mem_body_of_mem_left {t : PlacedToken} (ht : t ∈ c.left) : t ∈ c.body := by
  unfold left at ht
  unfold body
  cases hvalue : c.value with
  | none =>
    rw [hvalue] at ht
    cases ht
  | some st =>
    obtain ⟨span, ts⟩ := st
    rw [hvalue] at ht
    have hmem : t ∈ ts := List.mem_of_mem_drop ht
    simp [hmem]

/-- What goes on from within an initializer is not the next declarator: its name stands before. -/
theorem names_ne_of_left {d : Clause} (hleft : c.left ≠ []) (hr : Halts r)
    (hbefore : ∀ a ∈ c.body, a.span.start < d.name.span.start) (names : List Identifier) :
    (declarators (c.left ++ r)).1.map Declarator.name ≠ d.name :: names := by
  intro h
  have hcontinues : Continues c.left := by
    by_contra hends
    rw [(declarators_left_eq_nil hleft hr).2 hends] at h
    cases h
  obtain ⟨comma, name, span, l, he⟩ := hcontinues
  obtain ⟨more, hread⟩ := name_of_continues comma name span (l ++ r)
  rw [he, List.cons_append, List.cons_append, hread] at h
  have hlt := hbefore ⟨.identifier name, span⟩ (mem_body_of_mem_left (by simp [he]))
  rw [← (List.cons.inj h).1] at hlt
  exact Nat.lt_irrefl _ hlt

/-- The names of some declarators are read as they are written exactly when nothing is left of the
initializers before the last, and the last one leaves nothing that goes on. -/
theorem names_iff {stop : Text.Span} {after : List PlacedToken} (hcs : ∀ c ∈ cs, c.IsTyped)
    (hr : r = ⟨.punctuation .semicolon, stop⟩ :: after)
    (hplaces : (tail cs ++ r).Pairwise fun a b => a.span.start < b.span.start) :
    (declarators (tail cs ++ r)).1.map Declarator.name = cs.map Clause.name ↔
      (∀ c ∈ cs.dropLast, c.left = []) ∧ ∀ c ∈ cs.getLast?, ¬Continues c.left := by
  have hhalts : Halts r := by
    rw [hr]
    exact .inr rfl
  induction cs with
  | nil =>
    rw [hr]
    simp [tail, declarators]
  | cons c cs ih =>
    have hmore := halts_tail cs hhalts
    rw [tail_cons, List.append_assoc] at hplaces ⊢
    rw [declarators_clause (hcs c (by simp)) hmore]
    have hstep : (c.declarator :: (declarators (c.left ++ (tail cs ++ r))).1).map Declarator.name =
          (c :: cs).map Clause.name ↔
        (declarators (c.left ++ (tail cs ++ r))).1.map Declarator.name = cs.map Clause.name := by
      simp [declarator]
    rw [hstep]
    obtain ⟨-, hrest, hbefore⟩ := List.pairwise_append.1 hplaces
    by_cases hleft : c.left = []
    · have hiff := ih (fun b hb => hcs b (List.mem_cons_of_mem _ hb)) hrest
      rw [hleft, List.nil_append]
      refine hiff.trans ?_
      cases cs with
      | nil => simp [hleft, Continues]
      | cons d cs => simp [hleft]
    · cases cs with
      | nil =>
        have hnone : (declarators (c.left ++ r)).1 = [] ↔ ¬Continues c.left :=
          declarators_left_eq_nil hleft hhalts
        simpa [tail] using hnone
      | cons d cs =>
        -- What is read next starts within this declarator, and so before the next one written.
        have hname : ∀ a ∈ c.body, a.span.start < d.name.span.start := fun a ha =>
          hbefore a (by simp [tokens, ha]) ⟨.identifier d.name.name, d.name.span⟩
            (by simp [tail, tokens, body])
        have hne := names_ne_of_left hleft hmore hname (cs.map Clause.name)
        simpa [hleft] using hne

end Clause

namespace Parser

/-- A statement's declarators are read as if its keyword were a comma between them. -/
theorem declarators_of_statement {word : Keyword} {span : Text.Span} {ts : List PlacedToken}
    {s : Statement} {n : Nat} (h : statement word span ts = some (s, n)) (comma : Text.Span) :
    s.keyword = word ∧ s.span.start = span.start ∧
      s.declarators = (declarators (⟨.punctuation .comma, comma⟩ :: ts)).1 := by
  unfold statement at h
  cases hd : declarator ts with
  | none =>
    rw [hd] at h
    cases h
  | some dn =>
    obtain ⟨d, k⟩ := dn
    rw [hd] at h
    cases h
    refine ⟨rfl, rfl, ?_⟩
    rw [declarators, hd]

theorem mem_scan {before ts : List PlacedToken} {s : Statement} {n : Nat}
    (h : statementAt ts = some (s, n)) : s ∈ scan (before ++ ts) := by
  induction before with
  | nil =>
    rw [List.nil_append, scan_statement h]
    exact List.mem_cons_self
  | cons t before ih =>
    rw [List.cons_append, scan]
    exact List.mem_append_right _ ih

end Parser

/-- A written statement is one of the outline, and its declarators are read as if a comma stood in
the place of its keyword. -/
theorem exists_statement {source : String} {word : Keyword} {first : Clause} {more : List Clause}
    {stop : Text.Span} {before after : List PlacedToken}
    (htokens : (Scan.ofText source).tokens =
      before ++ (Clause.statement word first more stop ++ after)) :
    ∃ s ∈ Item.statements (Parsed.ofText source).outline.items,
      s.keyword = word ∧ s.span.start = first.lead.start ∧ s.declarators =
        (declarators (Clause.tail (first :: more) ++ ⟨.punctuation .semicolon, stop⟩ :: after)).1 := by
  obtain ⟨ts, hstatement, htail⟩ : ∃ ts,
      Clause.statement word first more stop ++ after =
        ⟨.keyword word, first.lead⟩ :: ⟨.identifier first.name.name, first.name.span⟩ :: ts ∧
      Clause.tail (first :: more) ++ ⟨.punctuation .semicolon, stop⟩ :: after =
        ⟨.punctuation .comma, first.lead⟩ :: ⟨.identifier first.name.name, first.name.span⟩ :: ts :=
    ⟨_, rfl, by simp [Clause.tail_cons, Clause.tokens, Clause.body]⟩
  obtain ⟨⟨s, n⟩, hread⟩ : ∃ sn, statement word first.lead
      (⟨.identifier first.name.name, first.name.span⟩ :: ts) = some sn := by
    rw [← Option.isSome_iff_exists, isSome_statement, isSome_declarator]
    exact ⟨_, _, _, rfl⟩
  obtain ⟨hword, hstart, hdeclarators⟩ := declarators_of_statement hread first.lead
  have hscan : scan (Scan.ofText source).tokens = Item.statements (Parsed.ofText source).outline.items :=
    scan_of_outline (topLevel_run _)
  refine ⟨s, ?_, hword, hstart, by rw [htail, hdeclarators]⟩
  rw [← hscan, htokens, hstatement]
  apply mem_scan (n := n + 1)
  rw [statementAt, hread]
  rfl

/-- Tokens whose brackets come in pairs. Keywords are nowhere among them, and commas and semicolons
only within brackets; `inner` says that they all are within some. -/
inductive Enclosed : Bool → List Token → Prop
  | nil (inner : Bool) : Enclosed inner []
  | token (inner : Bool) {t : Token} {ts : List Token} : (∀ word, t ≠ .keyword word) →
      (∀ mark ∈ [Punctuation.openParen, .closeParen, .openBracket, .closeBracket, .openBrace,
        .closeBrace], t ≠ .punctuation mark) →
      (inner = true ∨ t ≠ .punctuation .comma ∧ t ≠ .punctuation .semicolon) →
      Enclosed inner ts → Enclosed inner (t :: ts)
  | group (inner : Bool) {opening closing : Punctuation} {ts r : List Token} :
      (opening, closing) ∈ [(Punctuation.openParen, Punctuation.closeParen),
        (.openBracket, .closeBracket), (.openBrace, .closeBrace)] →
      Enclosed true ts → Enclosed inner r →
      Enclosed inner (.punctuation opening :: (ts ++ .punctuation closing :: r))

/-- The declarators of a statement are read by the names that they are written with, in their order,
exactly when the reader takes all of each initializer before the last one, and leaves of that one
nothing that goes on with a further declarator. Up to the first initializer that is not taken
whole, each declarator is read as it is written, and is a path declaration if it declares one. -/
theorem declarators_read_iff (source : String) (word : Keyword) (first : Clause) (more : List Clause)
    (stop : Text.Span) (before after : List PlacedToken)
    (htyped : ∀ c ∈ first :: more, c.IsTyped)
    (htokens : (Scan.ofText source).tokens =
      before ++ (Clause.statement word first more stop ++ after)) :
    let clauses := first :: more
    let outline := (Parsed.ofText source).outline
    ∃ s ∈ Item.statements outline.items, s.keyword = word ∧ s.span.start = first.lead.start ∧
      (s.declarators.map Declarator.name = clauses.map Clause.name ↔
        (∀ c ∈ clauses.dropLast, ∀ span ts, c.value = some (span, ts) → IsWhole ts) ∧
          ∀ c ∈ clauses.getLast?, ¬Clause.Continues c.left) ∧
      ∀ upTo c rest, clauses = upTo ++ c :: rest →
        (∀ b ∈ upTo, ∀ span ts, b.value = some (span, ts) → IsWhole ts) →
        (upTo ++ [c]).map Clause.declarator <+: s.declarators ∧
          ∀ d, c.declarator.pathDeclaration? = some d → d ∈ outline.pathDeclarations := by
  intro clauses outline
  obtain ⟨s, hs, hword, hstart, hdeclarators⟩ := exists_statement htokens
  have hhalts : Halts (⟨.punctuation .semicolon, stop⟩ :: after) := .inr rfl
  refine ⟨s, hs, hword, hstart, ?_, ?_⟩
  · have hstarts : (Clause.tail (first :: more) ++ ⟨.punctuation .semicolon, stop⟩ :: after).map
          (·.span.start) =
        (Clause.statement word first more stop ++ after).map (·.span.start) := by
      simp [Clause.tail_cons, Clause.statement, Clause.tokens]
    have hplaces := Scan.pairwise_starts source
    rw [htokens] at hplaces
    have hplaces := hplaces.sublist (List.sublist_append_right _ _)
    rw [← List.pairwise_map, ← hstarts, List.pairwise_map] at hplaces
    rw [hdeclarators]
    simp only [← Clause.left_eq_nil_iff]
    exact Clause.names_iff htyped rfl hplaces
  · intro upTo c rest hclauses hwhole
    have hleft : ∀ b ∈ upTo, b.left = [] := fun b hb => Clause.left_eq_nil_iff.2 (hwhole b hb)
    have hread : (upTo ++ [c]).map Clause.declarator <+: s.declarators := by
      rw [hdeclarators, show first :: more = _ from hclauses]
      exact Clause.declarators_upTo (hclauses ▸ htyped) hleft hhalts
    refine ⟨hread, ?_⟩
    intro d hd
    have hmem : c.declarator ∈ s.declarators := hread.subset (by simp)
    exact List.mem_filterMap.2 ⟨c.declarator, List.mem_flatMap.2 ⟨s, hs, hmem⟩, hd⟩

theorem typeExpr_name (name : String) (span : Text.Span) :
    typeExpr [⟨.identifier name, span⟩] = some (.reference ⟨[], ⟨name, span⟩⟩ [], 1) := by
  simp [typeExpr, pipe, union, member, primary, segments, typeArguments, bracketPairs, arrayOf,
    alternatives, QualifiedName.ofSegments]

def Clause.literal (lead : Text.Span) (name : Identifier) (colon : Text.Span) (type : Identifier)
    (equals : Text.Span) (value : String) (span : Text.Span) : Clause :=
  ⟨lead, name, some (colon, [⟨.identifier type.name, type.span⟩]),
    some (equals, [⟨.string value, span⟩])⟩

theorem Clause.isTyped_literal {lead colon equals span : Text.Span} {name type : Identifier}
    {value : String} : (literal lead name colon type equals value span).IsTyped := by
  rintro _ _ ⟨⟩
  exact ⟨_, typeExpr_name type.name type.span⟩

def callSource : String := "const a = f(1, 2), b: FilePathStr = \"gone\";"

def callClause : Clause :=
  ⟨⟨0, 5⟩, ⟨"a", ⟨6, 7⟩⟩, none, some (⟨8, 9⟩, [⟨.identifier "f", ⟨10, 11⟩⟩,
    ⟨.punctuation .openParen, ⟨11, 12⟩⟩, ⟨.number, ⟨12, 13⟩⟩, ⟨.punctuation .comma, ⟨13, 14⟩⟩,
    ⟨.number, ⟨15, 16⟩⟩, ⟨.punctuation .closeParen, ⟨16, 17⟩⟩])⟩

def goneClause : Clause :=
  .literal ⟨17, 18⟩ ⟨"b", ⟨19, 20⟩⟩ ⟨20, 21⟩ ⟨"FilePathStr", ⟨22, 33⟩⟩ ⟨34, 35⟩ "gone" ⟨36, 42⟩

/-- The second declarator of the statement is lost, and with it the path that it declares, although
the comma that the reader takes for its own stands within the brackets of the call. -/
theorem declarator_after_call_is_lost :
    (Scan.ofText callSource).tokens = Clause.statement .const callClause [goneClause] ⟨42, 43⟩ ∧
    (∀ c ∈ [callClause, goneClause], c.IsTyped ∧ ∀ span ts, c.value = some (span, ts) →
      ts ≠ [] ∧ Enclosed false (ts.map PlacedToken.token)) ∧
    (Parsed.ofText callSource).outline.declarators.map Declarator.name = [callClause.name] ∧
    goneClause.declarator.pathDeclaration? = some ⟨.file, "b", "gone", ⟨36, 42⟩⟩ ∧
    (Parsed.ofText callSource).outline.pathDeclarations = [] := by
  have htokens : Scan.ofText callSource =
      ⟨Clause.statement .const callClause [goneClause] ⟨42, 43⟩, []⟩ := by decide +kernel
  have hargs : Enclosed true [.number, .punctuation .comma, .number] :=
    .token _ (by simp) (by simp) (.inl rfl) (.token _ (by simp) (by simp) (.inl rfl)
      (.token _ (by simp) (by simp) (.inl rfl) (.nil _)))
  have hcall : Enclosed false [.identifier "f", .punctuation .openParen, .number,
      .punctuation .comma, .number, .punctuation .closeParen] :=
    .token _ (by simp) (by simp) (.inr (by simp)) (.group _ (by simp) hargs (.nil _))
  have hgone : Enclosed false [.string "gone"] :=
    .token _ (by simp) (by simp) (.inr (by simp)) (.nil _)
  rw [htokens, Parsed.ofText, htokens]
  have hpaired : ∀ c ∈ [callClause, goneClause], c.IsTyped ∧ ∀ span ts, c.value = some (span, ts) →
      ts ≠ [] ∧ Enclosed false (ts.map PlacedToken.token) := by
    rw [List.forall_mem_cons, List.forall_mem_singleton]
    refine ⟨⟨?_, ?_⟩, Clause.isTyped_literal, ?_⟩
    · rintro _ _ ⟨⟩
    · rintro _ _ ⟨⟩
      exact ⟨by simp, hcall⟩
    · rintro _ _ ⟨⟩
      exact ⟨by simp, hgone⟩
  exact ⟨rfl, hpaired, by cbv, by cbv, by cbv⟩

def numberSource : String := "var a: FilePathStr = \"a\", b = 1, c: FolderPathStr = \"c\";"

def fileClause : Clause :=
  .literal ⟨0, 3⟩ ⟨"a", ⟨4, 5⟩⟩ ⟨5, 6⟩ ⟨"FilePathStr", ⟨7, 18⟩⟩ ⟨19, 20⟩ "a" ⟨21, 24⟩

def numberClause : Clause :=
  ⟨⟨24, 25⟩, ⟨"b", ⟨26, 27⟩⟩, none, some (⟨28, 29⟩, [⟨.number, ⟨30, 31⟩⟩])⟩

def folderClause : Clause :=
  .literal ⟨31, 32⟩ ⟨"c", ⟨33, 34⟩⟩ ⟨34, 35⟩ ⟨"FolderPathStr", ⟨36, 49⟩⟩ ⟨50, 51⟩ "c" ⟨52, 55⟩

/-- All declarators of the statement are read, and the paths of both that declare one are found. -/
theorem declarator_after_number_is_read :
    (∃ s ∈ Item.statements (Parsed.ofText numberSource).outline.items,
      s.declarators.map Declarator.name = [⟨"a", ⟨4, 5⟩⟩, ⟨"b", ⟨26, 27⟩⟩, ⟨"c", ⟨33, 34⟩⟩]) ∧
    ⟨.file, "a", "a", ⟨21, 24⟩⟩ ∈ (Parsed.ofText numberSource).outline.pathDeclarations ∧
    ⟨.folder, "c", "c", ⟨52, 55⟩⟩ ∈ (Parsed.ofText numberSource).outline.pathDeclarations := by
  have htyped : ∀ c ∈ [fileClause, numberClause, folderClause], c.IsTyped := by
    rw [List.forall_mem_cons, List.forall_mem_cons, List.forall_mem_singleton]
    refine ⟨Clause.isTyped_literal, ?_, Clause.isTyped_literal⟩
    rintro _ _ ⟨⟩
  have hwhole : ∀ c ∈ [fileClause, numberClause, folderClause], ∀ span ts,
      c.value = some (span, ts) → IsWhole ts := by
    rw [List.forall_mem_cons, List.forall_mem_cons, List.forall_mem_singleton]
    refine ⟨?_, ?_, ?_⟩ <;> rintro _ _ ⟨⟩ <;> exact isWhole_singleton rfl
  have hlast : folderClause.left = [] := Clause.left_eq_nil_iff.2 (hwhole _ (by simp))
  obtain ⟨s, hs, -, -, hnames, hupTo⟩ := declarators_read_iff numberSource .var fileClause
    [numberClause, folderClause] ⟨55, 56⟩ [] [] htyped (by decide +kernel)
  refine ⟨⟨s, hs, hnames.2 ⟨fun c hc => hwhole c (List.mem_of_mem_dropLast hc), ?_⟩⟩, ?_, ?_⟩
  · intro c hc
    obtain rfl : folderClause = c := by simpa using hc
    rw [hlast]
    rintro ⟨_, _, _, _, ⟨⟩⟩
  · exact (hupTo [] fileClause _ rfl (by simp)).2 _ (by cbv)
  · refine (hupTo [fileClause, numberClause] folderClause [] rfl ?_).2 _ (by cbv)
    exact fun b hb => hwhole b (List.mem_append_left [folderClause] hb)

end PathAudit
