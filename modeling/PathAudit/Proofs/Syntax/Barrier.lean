import PathAudit.Proofs.Syntax.Follow
import PathAudit.Proofs.Syntax.Outline

/-! Barriers between statements. No declarator takes a keyword, a semicolon or a brace, and none is
read differently for what stands behind one, so the declarators of a text are those before a barrier
and then those after it, whatever is unfinished on either side. -/

namespace PathAudit.Parser

variable {ts r : List PlacedToken} {t : PlacedToken} {n : Nat}

/-- The tokens that no declarator takes: a keyword, a semicolon or a brace. -/
def isBarrier (t : Token) : Bool :=
  endsInitializer t && t != .punctuation .comma

def AtBarrier (ts : List PlacedToken) : Prop :=
  ∀ t ∈ ts.head?, isBarrier t.token

theorem atBarrier_cons (h : isBarrier t.token) : AtBarrier (t :: r) := by
  intro u hu
  obtain rfl : t = u := by simpa using hu
  exact h

theorem AtBarrier.atInitializerEnd (h : AtBarrier r) : AtInitializerEnd r := by
  intro t ht
  have hbarrier := h t ht
  unfold isBarrier at hbarrier
  exact (Bool.and_eq_true_iff.1 hbarrier).1

theorem AtBarrier.exists_cons {rest : List PlacedToken} (h : AtBarrier r)
    (he : ts ++ r = t :: rest) (ht : isBarrier t.token = false) :
    ∃ ts', ts = t :: ts' ∧ ts' ++ r = rest := by
  cases ts with
  | nil =>
    rw [List.nil_append] at he
    have hbarrier := h t (by simp [he])
    rw [ht] at hbarrier
    cases hbarrier
  | cons u ts =>
    obtain ⟨rfl, hrest⟩ := List.cons.inj he
    exact ⟨ts, rfl, hrest⟩

theorem AtBarrier.ne_cons {token : Token} (h : AtBarrier r) (htoken : isBarrier token = false)
    (hne : ∀ s rest, ts = ⟨token, s⟩ :: rest → False) (s : Text.Span) (rest : List PlacedToken) :
    ts ++ r = ⟨token, s⟩ :: rest → False := by
  intro he
  obtain ⟨ts', hts, -⟩ := h.exists_cons he htoken
  exact hne _ _ hts

theorem segments_atBarrier (h : AtBarrier r) (ts : List PlacedToken) :
    segments (ts ++ r) = segments ts := by
  fun_induction segments ts with
  | case1 s name s' ts ih => rw [List.cons_append, List.cons_append, segments, ih]
  | case2 ts hne =>
    rw [segments]
    intro s name s' rest he
    obtain ⟨ts', rfl, he'⟩ := h.exists_cons he rfl
    obtain ⟨ts'', rfl, -⟩ := h.exists_cons he' rfl
    exact hne _ _ _ _ rfl

theorem bracketPairs_atBarrier (h : AtBarrier r) (ts : List PlacedToken) :
    bracketPairs (ts ++ r) = bracketPairs ts := by
  fun_induction bracketPairs ts with
  | case1 s s' ts ih => rw [List.cons_append, List.cons_append, bracketPairs, ih]
  | case2 ts hne =>
    rw [bracketPairs]
    intro s s' rest he
    obtain ⟨ts', rfl, he'⟩ := h.exists_cons he rfl
    obtain ⟨ts'', rfl, -⟩ := h.exists_cons he' rfl
    exact hne _ _ _ rfl

theorem pipe_atBarrier (h : AtBarrier r) (ts : List PlacedToken) : pipe (ts ++ r) = pipe ts := by
  fun_cases pipe ts with
  | case1 s ts => rfl
  | case2 _ hne =>
    rw [pipe]
    exact h.ne_cons rfl hne

def TypeReader.Ignores (r : List PlacedToken) : TypeReader → List PlacedToken → Prop
  | .typeExpr, ts => Parser.typeExpr (ts ++ r) = Parser.typeExpr ts
  | .union, ts => Parser.union (ts ++ r) = Parser.union ts
  | .alternatives, ts => Parser.alternatives (ts ++ r) = Parser.alternatives ts
  | .member, ts => Parser.member (ts ++ r) = Parser.member ts
  | .primary, ts => Parser.primary (ts ++ r) = Parser.primary ts
  | .typeArguments, ts => Parser.typeArguments (ts ++ r) = Parser.typeArguments ts
  | .typeList, ts => Parser.typeList (ts ++ r) = Parser.typeList ts

theorem primary_atBarrier (h : AtBarrier r)
    (harguments : ∀ name span rest, ts = ⟨.identifier name, span⟩ :: rest →
      typeArguments (rest.drop (2 * (segments rest).length) ++ r) =
        typeArguments (rest.drop (2 * (segments rest).length)))
    (hinner : ∀ span rest, ts = ⟨.punctuation .openParen, span⟩ :: rest →
      typeExpr (rest ++ r) = typeExpr rest) : primary (ts ++ r) = primary ts := by
  fun_cases primary ts with
  | case1 name span rest more q ha =>
    have hargs := (harguments name span rest rfl).trans ha
    rw [← List.drop_append_of_le_length (covers_segments rest).le, ← segments_atBarrier h] at hargs
    rw [List.cons_append, primary, hargs, segments_atBarrier h]
  | case2 name span rest more q args k ha =>
    have hargs := (harguments name span rest rfl).trans ha
    rw [← List.drop_append_of_le_length (covers_segments rest).le, ← segments_atBarrier h] at hargs
    rw [List.cons_append, primary, hargs, segments_atBarrier h]
  | case3 value span rest => rw [List.cons_append, primary]
  | case4 span rest ht => rw [List.cons_append, primary, hinner span rest rfl, ht]
  | case5 span rest inner k ht span' after hclose =>
    rw [List.cons_append, primary, hinner span rest rfl, ht]
    simp only [drop_append_cons hclose]
  | case6 span rest inner k ht hopen =>
    rw [List.cons_append, primary, hinner span rest rfl, ht]
    simp only [List.drop_append_of_le_length (covers_typeExpr ht).le]
    split
    · next he => exact (h.ne_cons rfl hopen _ _ he).elim
    · rfl
  | case7 _ hname hstring hparen =>
    rw [primary]
    · intro name
      exact h.ne_cons rfl (hname name)
    · intro value
      exact h.ne_cons rfl (hstring value)
    · exact h.ne_cons rfl hparen

theorem typeArguments_atBarrier (h : AtBarrier r)
    (hlist : ∀ span rest, ts = ⟨.punctuation .less, span⟩ :: rest →
      typeList (rest ++ r) = typeList rest) : typeArguments (ts ++ r) = typeArguments ts := by
  fun_cases typeArguments ts with
  | case1 span rest args k hl span' after hclose =>
    rw [List.cons_append, typeArguments, hlist span rest rfl, hl]
    simp only [drop_append_cons hclose]
  | case2 span rest args k hl hopen =>
    have hk := (covers_typeList rest).le
    rw [hl] at hk
    rw [List.cons_append, typeArguments, hlist span rest rfl, hl]
    simp only [List.drop_append_of_le_length hk]
    split
    · next he => exact (h.ne_cons rfl hopen _ _ he).elim
    · rfl
  | case3 _ hne =>
    rw [typeArguments]
    exact h.ne_cons rfl hne

theorem types_atBarrier (h : AtBarrier r) (reader : TypeReader) (ts : List PlacedToken) :
    reader.Ignores r ts := by
  induction reader, ts using TypeReader.induction with
  | typeExpr ts ih =>
    simp only [TypeReader.Ignores] at ih ⊢
    rw [typeExpr, typeExpr, pipe_atBarrier h, List.drop_append_of_le_length (covers_pipe ts).le, ih]
  | union ts ihm iha =>
    simp only [TypeReader.Ignores] at ihm iha ⊢
    rw [union_eq, union_eq, ihm]
    apply Option.map_congr
    rintro ⟨first, n⟩ hm
    rw [List.drop_append_of_le_length (covers_member hm).le, iha first n hm]
  | alternatives ts ihm iha =>
    simp only [TypeReader.Ignores] at ihm iha ⊢
    fun_cases Parser.alternatives ts with
    | case1 span rest hm => rw [List.cons_append, alternatives, ihm span rest rfl, hm]
    | case2 span rest first n hm more k ha =>
      have hn : n ≤ rest.length := (covers_member hm).le
      rw [List.cons_append, alternatives, ihm span rest rfl, hm]
      simp only [List.drop_append_of_le_length hn, iha span rest first n rfl hm, ha]
    | case3 _ hne =>
      rw [alternatives]
      exact h.ne_cons rfl hne
  | member ts ih =>
    simp only [TypeReader.Ignores] at ih ⊢
    rw [member_eq, member_eq, ih]
    apply Option.map_congr
    rintro ⟨element, n⟩ hp
    rw [List.drop_append_of_le_length (covers_primary hp).le, bracketPairs_atBarrier h]
  | primary ts iha iht => exact primary_atBarrier h iha iht
  | typeArguments ts ih => exact typeArguments_atBarrier h ih
  | typeList ts iht ihl =>
    simp only [TypeReader.Ignores] at iht ihl ⊢
    obtain ⟨ht, hl⟩ | ⟨first, n, ht, hd, hl⟩ | ⟨first, n, span, after, ht, hd, hl⟩ :=
      typeList_cases ts
    · rw [hl, typeList_none (iht.trans ht)]
    · rw [hl]
      apply typeList_last (iht.trans ht)
      rw [List.drop_append_of_le_length (covers_typeExpr ht).le]
      exact h.ne_cons rfl hd
    · rw [hl, typeList_comma (iht.trans ht) (drop_append_cons hd r), ihl first n span after ht hd]

theorem typeExpr_atBarrier (h : AtBarrier r) (ts : List PlacedToken) :
    typeExpr (ts ++ r) = typeExpr ts :=
  types_atBarrier h .typeExpr ts

theorem ascription_atBarrier (h : AtBarrier r) (ts : List PlacedToken) :
    ascription (ts ++ r) = ascription ts := by
  fun_cases ascription ts with
  | case1 s ts t n ht => simp only [List.cons_append, ascription, typeExpr_atBarrier h, ht]
  | case2 s ts ht => simp only [List.cons_append, ascription, typeExpr_atBarrier h, ht]
  | case3 _ hne =>
    rw [ascription]
    exact h.ne_cons rfl hne

theorem assignment_atBarrier (h : AtBarrier r) (ts : List PlacedToken) :
    assignment (ts ++ r) = assignment ts := by
  fun_cases assignment ts with
  | case1 s ts e n he =>
    simp only [List.cons_append, assignment, initializer_append h.atInitializerEnd, he]
  | case2 _ hne =>
    rw [assignment]
    exact h.ne_cons rfl hne

theorem declarator_atBarrier (h : AtBarrier r) (ts : List PlacedToken) :
    declarator (ts ++ r) = declarator ts := by
  fun_cases declarator ts with
  | case1 name s ts t n ht e k he =>
    have hn : n ≤ ts.length := by
      have := (covers_ascription ts).le
      rwa [ht] at this
    simp only [List.cons_append, declarator, ascription_atBarrier h, ht,
      List.drop_append_of_le_length hn, assignment_atBarrier h, he]
  | case2 _ hne =>
    rw [declarator]
    intro name
    exact h.ne_cons rfl (hne name)

theorem declarators_atBarrier (h : AtBarrier r) (ts : List PlacedToken) :
    declarators (ts ++ r) = declarators ts := by
  fun_induction declarators ts with
  | case1 s ts hd => simp only [List.cons_append, declarators, declarator_atBarrier h, hd]
  | case2 s ts d n hd more k hk ih =>
    have hn : n ≤ ts.length := (covers_declarator hd).le
    simp only [List.cons_append, declarators, declarator_atBarrier h, hd,
      List.drop_append_of_le_length hn, ih, hk]
  | case3 ts hne =>
    rw [declarators]
    exact h.ne_cons rfl hne

theorem statement_atBarrier (h : AtBarrier r) (word : Keyword) (span : Text.Span)
    (ts : List PlacedToken) : (statement word span (ts ++ r)).map (·.1.declarators) =
      (statement word span ts).map (·.1.declarators) := by
  unfold statement
  rw [declarator_atBarrier h]
  cases hd : declarator ts with
  | none => rfl
  | some dn =>
    have hn : dn.2 ≤ ts.length := (covers_declarator hd).le
    simp only [Option.map_some, List.drop_append_of_le_length hn, declarators_atBarrier h]

/-- A statement has the same declarators whether its tokens end there or a barrier follows. Its span
may differ, since it takes a semicolon that follows. -/
theorem statementAt_atBarrier (h : AtBarrier r) (t : PlacedToken) (ts : List PlacedToken) :
    (statementAt (t :: (ts ++ r))).map (·.1.declarators) =
      (statementAt (t :: ts)).map (·.1.declarators) := by
  obtain ⟨token, span⟩ := t
  cases token with
  | keyword word =>
    have hread := statement_atBarrier h word span ts
    simp only [statementAt, Option.map_map]
    exact hread
  | _ => rfl

def declaratorsIn (ts : List PlacedToken) : List Declarator :=
  (⟨topLevel ts⟩ : Module).declarators

theorem declaratorsIn_eq_scan (ts : List PlacedToken) :
    declaratorsIn ts = (scan ts).flatMap Statement.declarators := by
  rw [declaratorsIn, Module.declarators, scan_eq_statements]

theorem declaratorsIn_cons (t : PlacedToken) (ts : List PlacedToken) :
    declaratorsIn (t :: ts) =
      ((statementAt (t :: ts)).map (·.1.declarators)).getD [] ++ declaratorsIn ts := by
  rw [declaratorsIn_eq_scan, declaratorsIn_eq_scan, scan, List.flatMap_append]
  cases statementAt (t :: ts) <;> simp

theorem declaratorsIn_append (h : AtBarrier r) (ts : List PlacedToken) :
    declaratorsIn (ts ++ r) = declaratorsIn ts ++ declaratorsIn r := by
  induction ts with
  | nil => rw [declaratorsIn_eq_scan []]; rfl
  | cons t ts ih =>
    rw [List.cons_append, declaratorsIn_cons, declaratorsIn_cons, statementAt_atBarrier h, ih,
      List.append_assoc]

/-- The declarators in tokens that hold a semicolon or a brace are those in the tokens before it and
then those in the tokens after it, whichever braces close which. No mark is needed before a
keyword. -/
theorem declaratorsIn_across_barrier (a b : List PlacedToken) :
    (∀ barrier : PlacedToken, barrier.token ∈
        [.punctuation .semicolon, .punctuation .openBrace, .punctuation .closeBrace] →
      declaratorsIn (a ++ barrier :: b) = declaratorsIn a ++ declaratorsIn b) ∧
    ∀ word span rest, b = ⟨.keyword word, span⟩ :: rest →
      declaratorsIn (a ++ b) = declaratorsIn a ++ declaratorsIn b := by
  constructor
  · intro barrier hmem
    have hbarrier : isBarrier barrier.token ∧ ∀ word, barrier.token ≠ .keyword word := by
      rcases List.mem_cons.1 hmem with h | h
      · rw [h]
        exact ⟨rfl, nofun⟩
      rcases List.mem_cons.1 h with h | h
      · rw [h]
        exact ⟨rfl, nofun⟩
      · rw [List.mem_singleton.1 h]
        exact ⟨rfl, nofun⟩
    -- the barrier begins no statement of its own
    rw [declaratorsIn_append (atBarrier_cons hbarrier.1), declaratorsIn_cons,
      statementAt_eq_none hbarrier.2]
    rfl
  · intro word span rest hb
    rw [hb]
    exact declaratorsIn_append (atBarrier_cons rfl) a

/-- The tokens of `const p: Box<`, a type whose arguments are not closed. -/
def openArguments : List PlacedToken :=
  [⟨.keyword .const, ⟨0, 5⟩⟩, ⟨.identifier "p", ⟨6, 7⟩⟩, ⟨.punctuation .colon, ⟨7, 8⟩⟩,
    ⟨.identifier "Box", ⟨9, 12⟩⟩, ⟨.punctuation .less, ⟨12, 13⟩⟩]

def closedArguments : List PlacedToken :=
  [⟨.punctuation .greater, ⟨15, 16⟩⟩, ⟨.punctuation .equals, ⟨17, 18⟩⟩, ⟨.string "x", ⟨19, 22⟩⟩,
    ⟨.punctuation .comma, ⟨22, 23⟩⟩, ⟨.identifier "q", ⟨24, 25⟩⟩, ⟨.punctuation .equals, ⟨26, 27⟩⟩,
    ⟨.string "y", ⟨28, 31⟩⟩]

/-- A brace keeps a declarator from what would complete it, and a keyword does as well. -/
theorem open_arguments_stay_open :
    (declaratorsIn (openArguments ++ closedArguments)).length = 2 ∧
    (declaratorsIn (openArguments ++ ⟨.punctuation .closeBrace, ⟨13, 14⟩⟩ :: closedArguments)) =
      [⟨⟨"p", ⟨6, 7⟩⟩, some (.reference ⟨[], ⟨"Box", ⟨9, 12⟩⟩⟩ []), none⟩] ∧
    (declaratorsIn (openArguments ++ openArguments)).map (·.name.name) = ["p", "p"] := by
  have hopen : declaratorsIn openArguments =
      [⟨⟨"p", ⟨6, 7⟩⟩, some (.reference ⟨[], ⟨"Box", ⟨9, 12⟩⟩⟩ []), none⟩] := by cbv
  have hclosed : declaratorsIn closedArguments = [] := by cbv
  refine ⟨by cbv, ?_, ?_⟩
  · rw [(declaratorsIn_across_barrier openArguments closedArguments).1 _ (by simp), hopen, hclosed]
    rfl
  · rw [(declaratorsIn_across_barrier openArguments openArguments).2 .const ⟨0, 5⟩ _ rfl, hopen]
    rfl

end PathAudit.Parser
