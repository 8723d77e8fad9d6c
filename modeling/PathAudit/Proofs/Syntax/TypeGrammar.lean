import PathAudit.Proofs.Syntax.Follow

/-! The grammar of types as a language over tokens, and the proof that the reader of types accepts it:
what it takes belongs to the grammar, and what belongs to the grammar it takes as a whole when nothing
that follows goes on with a type. -/

namespace PathAudit

open Token

namespace TypeGrammar

inductive Phrase
  | type
  | union
  | member
  | primary
  | arguments
  | list

def IsLead (lead : List Token) : Prop :=
  lead = [] ∨ lead = [.punctuation .pipe]

/-- The tokens are a phrase. Arguments may be left out, and a list may be empty or end with a comma. -/
inductive Yields : Phrase → List Token → Prop
  | type {lead w} : IsLead lead → Yields .union w → Yields .type (lead ++ w)
  | single {w} : Yields .member w → Yields .union w
  | several {w u} : Yields .member w → Yields .union u →
      Yields .union (w ++ .punctuation .pipe :: u)
  | plain {w} : Yields .primary w → Yields .member w
  | array {w} : Yields .member w →
      Yields .member (w ++ [.punctuation .openBracket, .punctuation .closeBracket])
  | reference (name : QualifiedName) {args} : Yields .arguments args →
      Yields .primary (name.tokens ++ args)
  | literal (value : String) : Yields .primary [.string value]
  | parenthesized {w} : Yields .type w →
      Yields .primary (.punctuation .openParen :: (w ++ [.punctuation .closeParen]))
  | absent : Yields .arguments []
  | arguments {w} : Yields .list w →
      Yields .arguments (.punctuation .less :: (w ++ [.punctuation .greater]))
  | empty : Yields .list []
  | last {w} : Yields .type w → Yields .list w
  | item {w u} : Yields .type w → Yields .list u → Yields .list (w ++ .punctuation .comma :: u)

end TypeGrammar

namespace Parser

open TypeGrammar

variable {ts r : List PlacedToken} {t : TypeExpr} {w u lead rest : List Token} {n k j : Nat}

def taken (ts : List PlacedToken) (n : Nat) : List Token :=
  (ts.take n).map PlacedToken.token

@[simp] theorem taken_zero (ts : List PlacedToken) : taken ts 0 = [] := rfl

@[simp] theorem taken_cons (t : PlacedToken) (ts : List PlacedToken) (n : Nat) :
    taken (t :: ts) (n + 1) = t.token :: taken ts n := rfl

theorem taken_add (ts : List PlacedToken) (n k : Nat) :
    taken ts (n + k) = taken ts n ++ taken (ts.drop n) k := by
  rw [taken, List.take_add, List.map_append, taken, taken]

theorem taken_succ {s : PlacedToken} (h : ts.drop n = s :: r) :
    taken ts (n + 1) = taken ts n ++ [s.token] := by
  rw [taken_add, h]
  rfl

theorem isLead_pipe (ts : List PlacedToken) : IsLead (taken ts (pipe ts)) := by
  fun_cases pipe ts with
  | case1 s r => exact .inr rfl
  | case2 ts => exact .inl rfl

theorem taken_segments (ts : List PlacedToken) : taken ts (2 * (segments ts).length) =
    (segments ts).flatMap fun i => [.punctuation .dot, .identifier i.name] := by
  fun_induction segments ts with
  | case1 s name s' ts ih =>
    rw [List.length_cons, Nat.mul_succ, taken_cons, taken_cons, ih]
    rfl
  | case2 ts => rfl

theorem taken_bracketPairs (ts : List PlacedToken) :
    taken ts (2 * bracketPairs ts) = brackets (bracketPairs ts) := by
  fun_induction bracketPairs ts with
  | case1 s s' ts ih =>
    rw [Nat.mul_succ, taken_cons, taken_cons, ih]
    rfl
  | case2 ts => rfl

theorem brackets_succ (j : Nat) :
    brackets (j + 1) = brackets j ++ [.punctuation .openBracket, .punctuation .closeBracket] := by
  induction j with
  | zero => rfl
  | succ j ih =>
    exact congrArg (.punctuation .openBracket :: .punctuation .closeBracket :: ·) ih

theorem yields_brackets (h : Yields .member w) (j : Nat) : Yields .member (w ++ brackets j) := by
  induction j with
  | zero => rwa [brackets, List.append_nil]
  | succ j ih =>
    rw [brackets_succ, ← List.append_assoc]
    exact .array ih

theorem taken_name (name : String) (span : Text.Span) (r : List PlacedToken) :
    taken (⟨.identifier name, span⟩ :: r) (1 + 2 * (segments r).length) =
      (QualifiedName.ofSegments ⟨name, span⟩ (segments r)).tokens := by
  rw [Nat.add_comm, taken_cons, taken_segments, QualifiedName.tokens_ofSegments]

theorem taken_reference (name : String) (span : Text.Span) (r : List PlacedToken) (n : Nat) :
    taken (⟨.identifier name, span⟩ :: r) (1 + 2 * (segments r).length + n) =
      (QualifiedName.ofSegments ⟨name, span⟩ (segments r)).tokens ++
        taken (r.drop (2 * (segments r).length)) n := by
  rw [taken_add, taken_name, Nat.add_comm 1, List.drop_succ_cons]

/-- What the reader of further members takes: nothing, or a pipe and a union. -/
def YieldsAlternatives (ts : List PlacedToken) : Prop :=
  alternatives ts = ([], 0) ∨ (alternatives ts).1 ≠ [] ∧
    ∃ u, Yields .union u ∧ taken ts (alternatives ts).2 = .punctuation .pipe :: u

theorem yields_union (hw : Yields .member w) (ha : YieldsAlternatives ts) :
    Yields .union (w ++ taken ts (alternatives ts).2) := by
  rcases ha with ha | ⟨-, u, hu, ha⟩
  · rw [ha, taken_zero, List.append_nil]
    exact .single hw
  · rw [ha]
    exact .several hw hu

def TypeReader.TakesPhrase : TypeReader → List PlacedToken → Prop
  | .typeExpr, ts => ∀ t n, Parser.typeExpr ts = some (t, n) → Yields .type (taken ts n)
  | .union, ts => ∀ t n, Parser.union ts = some (t, n) → Yields .union (taken ts n)
  | .alternatives, ts => YieldsAlternatives ts
  | .member, ts => ∀ t n, Parser.member ts = some (t, n) → Yields .member (taken ts n)
  | .primary, ts => ∀ t n, Parser.primary ts = some (t, n) → Yields .primary (taken ts n)
  | .typeArguments, ts =>
    ∀ args n, Parser.typeArguments ts = some (args, n) → Yields .arguments (taken ts n)
  | .typeList, ts => Yields .list (taken ts (Parser.typeList ts).2)

theorem yields_types (reader : TypeReader) (ts : List PlacedToken) : reader.TakesPhrase ts := by
  induction reader, ts using TypeReader.induction with
  | typeExpr ts ih =>
    intro t n h
    obtain ⟨k, hu, rfl⟩ := typeExpr_eq_some h
    rw [taken_add]
    exact .type (isLead_pipe ts) (ih t k hu)
  | union ts ihm iha =>
    intro t n h
    obtain ⟨first, k, hm, -, rfl⟩ := union_eq_some h
    rw [taken_add]
    exact yields_union (ihm first k hm) (iha first k hm)
  | alternatives ts ihm iha =>
    obtain h | ⟨span, r, first, n, rfl, hm, h⟩ := alternatives_cases ts
    · exact .inl h
    · refine .inr ⟨by rw [h]; exact List.cons_ne_nil _ _, _, yields_union (ihm span r rfl first n hm)
        (iha span r first n rfl hm), ?_⟩
      rw [h, Nat.add_assoc, Nat.add_comm 1, taken_cons, taken_add]
  | member ts ih =>
    intro t n h
    obtain ⟨element, k, hp, -, rfl⟩ := member_eq_some h
    rw [taken_add, taken_bracketPairs]
    exact yields_brackets (.plain (ih element k hp)) _
  | primary ts iha iht =>
    intro t n h
    cases primaryRead h with
    | name _ =>
      rw [taken_name, ← List.append_nil (QualifiedName.tokens _)]
      exact .reference _ .absent
    | applied ha =>
      rw [taken_reference]
      exact .reference _ (iha _ _ _ rfl _ _ ha)
    | literal => exact .literal _
    | parenthesized ht hclose =>
      rw [taken_cons, taken_succ hclose]
      exact .parenthesized (iht _ _ rfl _ _ ht)
  | typeArguments ts ih =>
    intro args n h
    obtain ⟨span, r, span', after, rfl, hclose, -, rfl⟩ := typeArguments_eq_some h
    rw [taken_cons, taken_succ hclose]
    exact .arguments (ih span r rfl)
  | typeList ts iht ihl =>
    rw [TypeReader.TakesPhrase]
    obtain ⟨-, h⟩ | ⟨first, n, ht, -, h⟩ | ⟨first, n, span, r, ht, hd, h⟩ := typeList_cases ts
    · rw [h]
      exact .empty
    · rw [h]
      exact .last (iht first n ht)
    · rw [h, Nat.add_assoc, taken_add, hd, Nat.add_comm 1, taken_cons]
      exact .item (iht first n ht) (ihl first n span r ht hd)

theorem yields_alternatives (ts : List PlacedToken) : YieldsAlternatives ts :=
  yields_types .alternatives ts

theorem yields_member (h : member ts = some (t, n)) : Yields .member (taken ts n) :=
  yields_types .member ts t n h

theorem yields_primary (h : primary ts = some (t, n)) : Yields .primary (taken ts n) :=
  yields_types .primary ts t n h

theorem yields_typeArguments {args : List TypeExpr} (h : typeArguments ts = some (args, n)) :
    Yields .arguments (taken ts n) :=
  yields_types .typeArguments ts args n h

theorem avoids_arguments (h : Yields .arguments w) (hrest : Avoids [.dot] rest) :
    Avoids [.dot] (w ++ rest) := by
  cases h with
  | absent => exact hrest
  | arguments => exact avoids_cons.2 (by decide)

theorem primary_of_name (name : QualifiedName)
    (h : ts.map PlacedToken.token = name.tokens ++ (w ++ rest)) (hw : Yields .arguments w)
    (hread : ∀ r, r.map PlacedToken.token = w ++ rest →
      w = [] ∧ typeArguments r = none ∨ ∃ args, typeArguments r = some (args, w.length))
    (hrest : Avoids [.dot] rest) :
    ∃ q args, q.last.name = name.last.name ∧
      primary ts = some (.reference q args, (name.tokens ++ w).length) := by
  obtain ⟨first, more, rfl⟩ := name.exists_ofSegments
  obtain ⟨span, r, rfl, hbare, hlen, hr⟩ :=
    name_read first more h (avoids_arguments hw hrest .dot (by simp))
  have hlast := congrArg (·.last.name) hbare
  refine ⟨.ofSegments ⟨first.name, span⟩ (segments r), ?_⟩
  rw [List.length_append, hlen, primary]
  rcases hread _ hr with ⟨rfl, hnone⟩ | ⟨args, hsome⟩
  · exact ⟨[], hlast, by rw [hnone]; rfl⟩
  · exact ⟨args, hlast, by rw [hsome]⟩

theorem primary_of_type {s s' : Text.Span} {r' : List PlacedToken} (h : typeExpr r = some (t, n))
    (hr : r.drop n = ⟨.punctuation .closeParen, s'⟩ :: r') :
    primary (⟨.punctuation .openParen, s⟩ :: r) = some (.parenthesized t, n + 2) := by
  rw [primary, h]
  simp only [hr]

theorem union_of_member (h : member ts = some (t, n)) (ha : alternatives (ts.drop n) = ([], 0)) :
    union ts = some (t, n) := by
  rw [union, h]
  simp only [ha, Nat.add_zero]

theorem union_of_members {u : TypeExpr} {us : List TypeExpr} (h : member ts = some (t, n))
    (ha : alternatives (ts.drop n) = (u :: us, k)) :
    union ts = some (.union (t :: u :: us), n + k) := by
  rw [union, h]
  simp only [ha]

/-- The members of a union are read after a pipe as they are read before it. -/
theorem alternatives_of_union (span : Text.Span) (h : union r = some (t, n)) :
    ∃ u us, alternatives (⟨.punctuation .pipe, span⟩ :: r) = (u :: us, 1 + n) := by
  obtain ⟨first, k, hm, -, rfl⟩ := union_eq_some h
  refine ⟨first, (alternatives (r.drop k)).1, ?_⟩
  simp only [alternatives, hm, Nat.add_assoc]

theorem typeExpr_of_union (hlead : IsLead lead) (h : ts.map PlacedToken.token = lead ++ (w ++ rest))
    (hread : union (ts.drop lead.length) = some (t, w.length)) :
    typeExpr ts = some (t, (lead ++ w).length) := by
  have hpipe : pipe ts = lead.length := by
    rcases hlead with rfl | rfl
    · cases hm : member ts with
      | none => simp [union, hm] at hread
      | some m => exact pipe_of_member hm
    · obtain ⟨span, r, rfl, -⟩ := exists_of_map_eq_cons h
      rfl
  rw [typeExpr, hpipe, hread, List.length_append]
  rfl

/-- What it is for a phrase to be read: its reader takes all of it, and nothing that follows. -/
def IsRead : Phrase → List Token → Prop
  | .type, w => ∀ ts rest, ts.map PlacedToken.token = w ++ rest → Avoids typeMarks rest →
      ∃ t, typeExpr ts = some (t, w.length)
  | .union, w => ∀ ts rest, ts.map PlacedToken.token = w ++ rest → Avoids typeMarks rest →
      ∃ t, union ts = some (t, w.length)
  | .member, w => ∀ j ts rest, ts.map PlacedToken.token = w ++ (brackets j ++ rest) →
      Avoids [.dot, .less, .openBracket] rest →
      ∃ t, member ts = some (arrayOf t j, w.length + 2 * j)
  | .primary, w => ∀ ts rest, ts.map PlacedToken.token = w ++ rest → Avoids [.dot, .less] rest →
      ∃ t, primary ts = some (t, w.length)
  | .arguments, w => ∀ ts rest, ts.map PlacedToken.token = w ++ rest → Avoids [.less] rest →
      w = [] ∧ typeArguments ts = none ∨ ∃ args, typeArguments ts = some (args, w.length)
  | .list, w => ∀ ts rest, ts.map PlacedToken.token = w ++ .punctuation .greater :: rest →
      (typeList ts).2 = w.length

theorem union_of_several (hw : IsRead .member w) (hu : IsRead .union u)
    (hts : ts.map PlacedToken.token = w ++ .punctuation .pipe :: u ++ rest)
    (hrest : Avoids typeMarks rest) :
    ∃ ms, union ts = some (.union ms, (w ++ .punctuation .pipe :: u).length) := by
  rw [List.append_assoc, List.cons_append] at hts
  obtain ⟨t, hread⟩ := hw 0 ts _ hts (avoids_cons.2 (by decide))
  obtain ⟨span, r, hpipe, hr⟩ := exists_of_map_eq_cons (map_drop hts)
  obtain ⟨v, hmore⟩ := hu r rest hr hrest
  obtain ⟨x, xs, ha⟩ := alternatives_of_union span hmore
  rw [← hpipe] at ha
  refine ⟨t :: x :: xs, ?_⟩
  rw [union_of_members hread ha, List.length_append, List.length_cons, Nat.add_comm 1]
  rfl

theorem member_of_array (hw : IsRead .member w)
    (hts : ts.map PlacedToken.token =
      w ++ [.punctuation .openBracket, .punctuation .closeBracket] ++ (brackets j ++ rest))
    (hrest : Avoids [.dot, .less, .openBracket] rest) :
    ∃ t, member ts = some (arrayOf (.array t) j,
      (w ++ [Token.punctuation .openBracket, .punctuation .closeBracket]).length + 2 * j) := by
  have hpair : ts.map PlacedToken.token = w ++ (brackets (j + 1) ++ rest) := by
    rw [hts, brackets]
    simp
  obtain ⟨t, hread⟩ := hw (j + 1) ts rest hpair hrest
  refine ⟨t, ?_⟩
  rw [hread, arrayOf, List.length_append, Nat.mul_succ, Nat.add_assoc, Nat.add_comm (2 * j)]
  rfl

theorem isRead_of_yields {p : Phrase} (h : Yields p w) : IsRead p w := by
  induction h with
  | @type lead w hlead hw ih =>
    intro ts rest hts hrest
    rw [List.append_assoc] at hts
    obtain ⟨t, hread⟩ := ih _ rest (map_drop hts) hrest
    exact ⟨t, typeExpr_of_union hlead hts hread⟩
  | @single w hw ih =>
    intro ts rest hts hrest
    obtain ⟨t, hread⟩ := ih 0 ts rest hts (hrest.mono (by decide))
    exact ⟨t, union_of_member hread (alternatives_none (map_drop hts) (hrest _ (by decide)))⟩
  | several _ _ ihw ihu =>
    intro ts rest hts hrest
    obtain ⟨ms, hread⟩ := union_of_several ihw ihu hts hrest
    exact ⟨_, hread⟩
  | @plain w hw ih =>
    intro j ts rest hts hrest
    obtain ⟨t, hread⟩ := ih ts _ hts (head_brackets hrest)
    exact ⟨t, member_of_primary hread (map_drop hts) hrest⟩
  | array _ ih =>
    intro j ts rest hts hrest
    obtain ⟨t, hread⟩ := member_of_array ih hts hrest
    exact ⟨_, hread⟩
  | @reference name args hargs ih =>
    intro ts rest hts hrest
    rw [List.append_assoc] at hts
    obtain ⟨q, us, -, hread⟩ := primary_of_name name hts hargs
      (fun r hr => ih r rest hr (hrest.mono (by decide))) (hrest.mono (by decide))
    exact ⟨_, hread⟩
  | literal value =>
    intro ts rest hts hrest
    exact ⟨_, primary_literal value hts⟩
  | @parenthesized w hw ih =>
    intro ts rest hts hrest
    rw [List.cons_append, List.append_assoc] at hts
    obtain ⟨span, r, rfl, hr⟩ := exists_of_map_eq_cons hts
    obtain ⟨t, hread⟩ := ih r _ hr (avoids_cons.2 (by decide))
    obtain ⟨span', r', hclose, -⟩ := exists_of_map_eq_cons (map_drop hr)
    exact ⟨.parenthesized t, by rw [primary_of_type hread hclose]; simp⟩
  | absent =>
    intro ts rest hts hrest
    exact .inl ⟨rfl, typeArguments_none hts (hrest _ (by simp))⟩
  | @arguments w hw ih =>
    intro ts rest hts hrest
    rw [List.cons_append, List.append_assoc] at hts
    obtain ⟨span, r, rfl, hr⟩ := exists_of_map_eq_cons hts
    obtain ⟨span', r', hclose, -⟩ := exists_of_map_eq_cons (map_drop hr)
    have hlist := ih r rest hr
    refine .inr ⟨(typeList r).1, ?_⟩
    rw [typeArguments]
    simp only [hlist, hclose, List.length_cons, List.length_append, List.length_nil]
  | empty =>
    intro ts rest hts
    obtain ⟨span, r, rfl, -⟩ := exists_of_map_eq_cons hts
    rw [typeList_none (typeExpr_greater span r)]
    rfl
  | @last w hw ih =>
    intro ts rest hts
    obtain ⟨t, hread⟩ := ih ts _ hts (avoids_cons.2 (by decide))
    rw [typeList_last hread]
    intro span r hcomma
    exact ne_of_head (map_drop hts) (by simp) _ _ hcomma
  | @item w u hw hu ihw ihu =>
    intro ts rest hts
    rw [List.append_assoc, List.cons_append] at hts
    obtain ⟨t, hread⟩ := ihw ts _ hts (avoids_cons.2 (by decide))
    obtain ⟨span, r, hcomma, hr⟩ := exists_of_map_eq_cons (map_drop hts)
    rw [typeList_comma hread hcomma, ihu r rest hr, List.length_append, List.length_cons,
      Nat.add_assoc, Nat.add_comm 1]

end Parser

end PathAudit
