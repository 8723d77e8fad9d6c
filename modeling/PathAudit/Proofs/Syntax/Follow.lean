import Mathlib.Data.List.TakeWhile
import PathAudit.Proofs.Syntax.ReadType

/-! What follows a type or an initializer. A type that was read of some tokens is read of them
whatever comes after, when that does not begin with a mark that goes on with a type. How much is read
of an initializer depends on it alone when what comes after begins with a token that ends one. -/

namespace PathAudit.Parser

variable {ts r : List PlacedToken} {t : TypeExpr} {n k : Nat}

def typeMarks : List Punctuation :=
  [.dot, .less, .openBracket, .pipe]

/-- What is read of the tokens is read of them whatever follows, when the tokens left begin with none
of the marks. -/
def Keeps {α : Type} (read : List PlacedToken → Option (α × Nat)) (marks : List Punctuation)
    (ts : List PlacedToken) : Prop :=
  ∀ x n, read ts = some (x, n) → ∀ r, Avoids marks (((ts ++ r).drop n).map PlacedToken.token) →
    read (ts ++ r) = some (x, n)

theorem segments_append (ts r : List PlacedToken)
    (h : Avoids [.dot] (((ts ++ r).drop (2 * (segments ts).length)).map PlacedToken.token)) :
    segments (ts ++ r) = segments ts := by
  fun_induction segments ts with
  | case1 s name s' ts ih =>
    rw [List.length_cons, Nat.mul_succ] at h
    rw [List.cons_append, List.cons_append, segments, ih h]
  | case2 ts =>
    rw [segments]
    intro s name s' r' hr
    exact ne_of_head rfl (h .dot (by simp)) _ _ hr

theorem bracketPairs_append (ts r : List PlacedToken)
    (h : Avoids [.openBracket] (((ts ++ r).drop (2 * bracketPairs ts)).map PlacedToken.token)) :
    bracketPairs (ts ++ r) = bracketPairs ts := by
  fun_induction bracketPairs ts with
  | case1 s s' ts ih =>
    rw [Nat.mul_succ] at h
    rw [List.cons_append, List.cons_append, bracketPairs, ih h]
  | case2 ts =>
    rw [bracketPairs]
    intro s s' r' hr
    exact ne_of_head rfl (h .openBracket (by simp)) _ _ hr

theorem pipe_cons (t : PlacedToken) (ts r : List PlacedToken) : pipe (t :: ts) = pipe (t :: r) := by
  obtain ⟨token, s⟩ := t
  cases token with
  | punctuation mark => cases mark <;> rfl
  | _ => rfl

/-- Where bracket pairs are read, nothing else goes on with what is before them. -/
theorem avoids_before_brackets {marks : List Punctuation} (ts : List PlacedToken)
    (hmarks : .openBracket ∉ marks)
    (h : Avoids marks ((ts.drop (2 * bracketPairs ts)).map PlacedToken.token)) :
    Avoids marks (ts.map PlacedToken.token) := by
  fun_cases bracketPairs ts with
  | case1 s s' ts => exact avoids_cons.2 hmarks
  | case2 ts hne =>
    rw [bracketPairs] at h
    · exact h
    · exact hne

theorem avoids_before_alternatives {marks : List Punctuation} (ts : List PlacedToken)
    (hmarks : .pipe ∉ marks)
    (h : Avoids marks ((ts.drop (alternatives ts).2).map PlacedToken.token)) :
    Avoids marks (ts.map PlacedToken.token) := by
  fun_cases alternatives ts with
  | case1 s r => exact avoids_cons.2 hmarks
  | case2 s r => exact avoids_cons.2 hmarks
  | case3 ts hne =>
    rw [alternatives] at h
    · exact h
    · exact hne

theorem typeExpr_greater (span : Text.Span) (r : List PlacedToken) :
    typeExpr (⟨.punctuation .greater, span⟩ :: r) = none := by
  simp [typeExpr, pipe, union, member, primary]

theorem drop_append_add (h : n ≤ ts.length) :
    (ts ++ r).drop (n + k) = (ts.drop n ++ r).drop k := by
  rw [← List.drop_drop, List.drop_append_of_le_length h]

def KeepsAlternatives (ts : List PlacedToken) : Prop :=
  ∀ r, Avoids typeMarks (((ts ++ r).drop (alternatives ts).2).map PlacedToken.token) →
    alternatives (ts ++ r) = alternatives ts

/-- A member and the members after it are read whatever follows, if each part is. -/
theorem members_append (hm : member ts = some (t, n)) (ihm : Keeps member [.dot, .less, .openBracket] ts)
    (iha : KeepsAlternatives (ts.drop n))
    (hr : Avoids typeMarks
      (((ts ++ r).drop (n + (alternatives (ts.drop n)).2)).map PlacedToken.token)) :
    member (ts ++ r) = some (t, n) ∧ alternatives ((ts ++ r).drop n) = alternatives (ts.drop n) := by
  have hn : n ≤ ts.length := (covers_member hm).le
  rw [drop_append_add hn] at hr
  have halt := iha r hr
  have hbefore : Avoids [.dot, .less, .openBracket] ((ts.drop n ++ r).map PlacedToken.token) := by
    apply avoids_before_alternatives _ (by decide)
    rw [halt]
    exact hr.mono (by decide)
  rw [List.drop_append_of_le_length hn]
  refine ⟨ihm t n hm r ?_, halt⟩
  rwa [List.drop_append_of_le_length hn]

theorem drop_append_cons {t : PlacedToken} {after : List PlacedToken} (h : ts.drop n = t :: after)
    (r : List PlacedToken) : (ts ++ r).drop n = t :: (after ++ r) := by
  have hle : n ≤ ts.length := by
    have := congrArg List.length h
    rw [List.length_drop, List.length_cons] at this
    omega
  rw [List.drop_append_of_le_length hle, h, List.cons_append]

def TypeReader.Kept : TypeReader → List PlacedToken → Prop
  | .typeExpr, ts => Keeps Parser.typeExpr typeMarks ts
  | .union, ts => Keeps Parser.union typeMarks ts
  | .alternatives, ts => KeepsAlternatives ts
  | .member, ts => Keeps Parser.member [.dot, .less, .openBracket] ts
  | .primary, ts => Keeps Parser.primary [.dot, .less] ts
  | .typeArguments, ts => Keeps Parser.typeArguments [] ts
  | .typeList, ts => ∀ span after r,
      ts.drop (Parser.typeList ts).2 = ⟨.punctuation .greater, span⟩ :: after →
        Parser.typeList (ts ++ r) = Parser.typeList ts

theorem types_keep (reader : TypeReader) (ts : List PlacedToken) : reader.Kept ts := by
  induction reader, ts using TypeReader.induction with
  | typeExpr ts ih =>
    intro t n h r hr
    obtain ⟨k, hu, rfl⟩ := typeExpr_eq_some h
    cases ts with
    | nil => simp [pipe, union, member, primary] at hu
    | cons u ts =>
      have hpipe : pipe (u :: ts ++ r) = pipe (u :: ts) := pipe_cons u _ _
      have hle := (covers_pipe (u :: ts)).le
      rw [drop_append_add hle] at hr
      rw [typeExpr, hpipe, List.drop_append_of_le_length hle, ih t k hu r hr]
      rfl
  | union ts ihm iha =>
    intro t n h r hr
    obtain ⟨first, k, hm, rfl, rfl⟩ := union_eq_some h
    obtain ⟨hmember, halt⟩ := members_append hm ihm (iha first k hm) hr
    rw [union_eq, hmember, Option.map_some, halt]
  | alternatives ts ihm iha =>
    intro r hr
    obtain h | ⟨span, rest, first, n, rfl, hm, h⟩ := alternatives_cases ts
    · rw [h] at hr ⊢
      exact alternatives_none rfl (hr .pipe (by decide))
    · rw [h, Nat.add_assoc, Nat.add_comm 1, List.cons_append, List.drop_succ_cons] at hr
      obtain ⟨hmember, halt⟩ :=
        members_append hm (ihm span rest rfl) (iha span rest first n rfl hm) hr
      rw [h, List.cons_append, alternatives, hmember]
      simp only [halt]
  | member ts ih =>
    intro t n h r hr
    obtain ⟨element, k, hp, rfl, rfl⟩ := member_eq_some h
    have hk := (covers_primary hp).le
    rw [drop_append_add hk] at hr
    have hpairs := bracketPairs_append (ts.drop k) r (hr.mono (by decide))
    -- After the primary comes a bracket, or else what comes after the member.
    have hbefore : Avoids [.dot, .less] ((ts.drop k ++ r).map PlacedToken.token) := by
      apply avoids_before_brackets _ (by decide)
      rw [hpairs]
      exact hr.mono (by decide)
    rw [← List.drop_append_of_le_length hk] at hbefore hpairs
    rw [member_eq, ih element k hp r hbefore, Option.map_some, hpairs]
  | primary ts iha iht =>
    intro t n h r hr
    cases primaryRead h with
    | @name name span rest ha =>
      rw [Nat.add_comm, List.cons_append, List.drop_succ_cons] at hr
      have hmore := segments_append rest r (hr.mono (by decide))
      have hargs := typeArguments_none rfl (hr .less (by simp))
      rw [← hmore] at hargs
      rw [List.cons_append, primary, hargs, hmore]
    | @applied name span rest args k ha =>
      obtain ⟨_, _, _, _, hless, -⟩ := typeArguments_eq_some ha
      have hle := (covers_segments rest).le
      have hmore := segments_append rest r (by
        rw [drop_append_cons hless]
        exact avoids_cons.2 (by decide))
      have hargs := iha name span rest rfl args k ha r (by simp [Avoids])
      rw [← List.drop_append_of_le_length hle, ← hmore] at hargs
      rw [List.cons_append, primary, hargs, hmore]
    | literal => rw [List.cons_append, primary]
    | @parenthesized span rest inner k span' after ht hclose =>
      have hclose' := drop_append_cons hclose r
      have hinner := iht span rest rfl inner k ht r (by
        rw [hclose']
        exact avoids_cons.2 (by decide))
      rw [List.cons_append, primary, hinner]
      simp only [hclose']
  | typeArguments ts ih =>
    intro args n h r _
    obtain ⟨span, rest, span', after, rfl, hclose, rfl, rfl⟩ := typeArguments_eq_some h
    rw [List.cons_append, typeArguments, ih span rest rfl span' after r hclose]
    simp only [drop_append_cons hclose r]
  | typeList ts iht ihl =>
    intro span last r hgreater
    obtain ⟨ht, h⟩ | ⟨first, n, ht, hd, h⟩ | ⟨first, n, s, after, ht, hd, h⟩ := typeList_cases ts
    · rw [h] at hgreater ⊢
      cases hgreater
      exact typeList_none (typeExpr_greater span _)
    · -- The list ends at the closing `>`, which goes on neither with a type nor with the list.
      rw [h] at hgreater ⊢
      have hclose := drop_append_cons hgreater r
      have hfirst := iht first n ht r (by
        rw [hclose]
        exact avoids_cons.2 (by decide))
      apply typeList_last hfirst
      intro s r' hcomma
      rw [hclose] at hcomma
      cases hcomma
    · rw [h, Nat.add_assoc, ← List.drop_drop, hd, Nat.add_comm 1, List.drop_succ_cons] at hgreater
      have hcomma := drop_append_cons hd r
      have hfirst := iht first n ht r (by
        rw [hcomma]
        exact avoids_cons.2 (by decide))
      rw [h, typeList_comma hfirst hcomma, ihl first n s after ht hd span last r hgreater]

/-- A type that takes all of some tokens is read of them whatever follows, unless that goes on with
a type. -/
theorem typeExpr_append (h : typeExpr ts = some (t, ts.length))
    (hr : Avoids typeMarks (r.map PlacedToken.token)) : typeExpr (ts ++ r) = some (t, ts.length) := by
  apply types_keep .typeExpr ts t _ h
  rwa [List.drop_left]

/-- The tokens begin with a comma or a semicolon. -/
def Halts : List PlacedToken → Prop
  | [] => False
  | t :: _ => t.token = .punctuation .comma ∨ t.token = .punctuation .semicolon

theorem Halts.avoids {marks : List Punctuation} (h : Halts r) (hcomma : .comma ∉ marks)
    (hsemi : .semicolon ∉ marks) : Avoids marks (r.map PlacedToken.token) := by
  cases r with
  | nil => cases h
  | cons t r =>
    rcases h with h | h
    · rw [List.map_cons, h]
      exact avoids_cons.2 hcomma
    · rw [List.map_cons, h]
      exact avoids_cons.2 hsemi

def AtInitializerEnd (ts : List PlacedToken) : Prop :=
  ∀ t ∈ ts.head?, endsInitializer t.token

theorem Halts.atInitializerEnd (h : Halts r) : AtInitializerEnd r := by
  cases r with
  | nil => cases h
  | cons t r =>
    intro u hu
    obtain rfl : t = u := by simpa using hu
    rcases h with h | h <;> rw [h] <;> rfl

theorem extendsLiteral_of_endsInitializer {t : Token} (h : endsInitializer t) :
    extendsLiteral t = false := by
  unfold endsInitializer at h
  split at h
  · next mark =>
    revert h
    cases mark <;> decide
  · rfl
  · cases h

theorem takeWhile_append_of_end (h : AtInitializerEnd r) (ts : List PlacedToken) :
    (ts ++ r).takeWhile (!endsInitializer ·.token) = ts.takeWhile (!endsInitializer ·.token) := by
  induction ts with
  | nil =>
    cases r with
    | nil => rfl
    | cons t r => simp [h t rfl]
  | cons t ts ih =>
    rw [List.cons_append, List.takeWhile_cons, List.takeWhile_cons, ih]

theorem initializer_run (h : ∀ value s r, ts ≠ ⟨.string value, s⟩ :: r) :
    initializer ts = (.other, (ts.takeWhile (!endsInitializer ·.token)).length) := by
  rw [initializer]
  · rintro value s rfl
    exact h _ _ _ rfl
  · rintro value s next r rfl
    exact h _ _ _ rfl

/-- A token that ends an initializer changes nothing in how what is before it is read. -/
theorem initializer_append (h : AtInitializerEnd r) (ts : List PlacedToken) :
    initializer (ts ++ r) = initializer ts := by
  have hrun := takeWhile_append_of_end h ts
  fun_cases initializer ts with
  | case1 value s =>
    cases r with
    | nil => rfl
    | cons t r => simp [initializer, extendsLiteral_of_endsInitializer (h t rfl)]
  | case2 value s next r' hext run =>
    rw [List.cons_append, List.cons_append] at hrun ⊢
    simp only [initializer, hext, if_true, hrun, run]
  | case3 value s next r' hext =>
    rw [List.cons_append, List.cons_append, initializer]
    simp only [hext]
    rfl
  | case4 ts run hone hmore =>
    rw [initializer_run, hrun]
    intro value s r' hts
    cases ts with
    | nil =>
      rw [List.nil_append] at hts
      have hends := h ⟨.string value, s⟩ (by rw [hts]; rfl)
      cases hends
    | cons t ts =>
      cases hts
      cases ts with
      | nil => exact hone _ _ rfl
      | cons next ts => exact hmore _ _ _ _ rfl

theorem drop_run_eq_nil_iff (ts : List PlacedToken) :
    ts.drop (ts.takeWhile (!endsInitializer ·.token)).length = [] ↔
      ∀ t ∈ ts, endsInitializer t.token = false := by
  have hpre := List.takeWhile_prefix (l := ts) (!endsInitializer ·.token)
  rw [List.drop_eq_nil_iff]
  constructor
  · intro hge
    have hall := hpre.eq_of_length (Nat.le_antisymm hpre.length_le hge)
    simpa using List.takeWhile_eq_self_iff.1 hall
  · intro hall
    rw [List.takeWhile_eq_self_iff.2 (by simpa using hall)]

/-- Holds when no token ends an initializer, and a literal at the front goes on if it is not alone. -/
def IsWhole (ts : List PlacedToken) : Prop :=
  (∀ t ∈ ts, endsInitializer t.token = false) ∧
    ∀ value span next r, ts = ⟨.string value, span⟩ :: next :: r → extendsLiteral next.token = true

theorem isWhole_singleton {t : PlacedToken} (h : endsInitializer t.token = false) : IsWhole [t] :=
  ⟨by simpa using h, by rintro _ _ _ _ ⟨⟩⟩

theorem drop_initializer_eq_nil_iff (ts : List PlacedToken) :
    ts.drop (initializer ts).2 = [] ↔ IsWhole ts := by
  unfold IsWhole
  fun_cases initializer ts with
  | case1 value s => simp [endsInitializer]
  | case2 value s next r' hext run =>
    rw [drop_run_eq_nil_iff]
    refine ⟨fun h => ⟨h, ?_⟩, And.left⟩
    rintro v s' n r ⟨⟩
    exact hext
  | case3 value s next r' hext =>
    constructor
    · intro h
      cases h
    · intro h
      exact absurd (h.2 _ _ _ _ rfl) hext
  | case4 ts run hone hmore =>
    rw [drop_run_eq_nil_iff]
    refine ⟨fun h => ⟨h, ?_⟩, And.left⟩
    rintro v s' n r rfl
    exact (hmore _ _ _ _ rfl).elim

end PathAudit.Parser
