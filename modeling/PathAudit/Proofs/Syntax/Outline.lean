import PathAudit.Proofs.Syntax.Extent

/-! The outline as a scan from left to right. The reader of items nests blocks and goes back over
braces that are never closed, but no part of a statement takes a keyword, so its statements are
those that a single pass finds: one for each keyword that a name follows. -/

namespace PathAudit.Parser

/-- The statement that begins with the first of the tokens, and how many tokens it takes. -/
def statementAt : List PlacedToken → Option (Statement × Nat)
  | ⟨.keyword word, span⟩ :: r => (statement word span r).map fun (s, n) => (s, n + 1)
  | _ => none

def AtClose : List PlacedToken → Prop
  | [] => True
  | t :: _ => t.token = .punctuation .closeBrace

/-- How the reader of items goes over tokens: what it read and the tokens that it left. -/
inductive ItemsRun : List PlacedToken → List Item → List PlacedToken → Prop
  | stop {ts} : AtClose ts → ItemsRun ts [] ts
  | statement {ts s n more rest} : statementAt ts = some (s, n) →
      ItemsRun (ts.drop n) more rest → ItemsRun ts (.variable s :: more) rest
  | block {span r inner t r' more rest} :
      ItemsRun r inner (t :: r') → ItemsRun r' more rest →
      ItemsRun (⟨.punctuation .openBrace, span⟩ :: r) (.block inner :: more) rest
  | unclosed {span r inner} : ItemsRun r inner [] →
      ItemsRun (⟨.punctuation .openBrace, span⟩ :: r) inner []
  | skip {t r more rest} : statementAt (t :: r) = none → t.token ≠ .punctuation .openBrace →
      t.token ≠ .punctuation .closeBrace → ItemsRun r more rest → ItemsRun (t :: r) more rest

theorem items_run (ts : List PlacedToken) : ItemsRun ts (items ts).1 (ts.drop (items ts).2) := by
  fun_induction items ts with
  | case1 => exact .stop trivial
  | case2 s r => exact .stop rfl
  | case3 s r inner n hi hd ih =>
    rw [hi, hd] at ih
    rw [Nat.add_comm, List.drop_succ_cons, hd]
    exact .unclosed ih
  | case4 s r inner n hi t r' hd more k hk ih ih' =>
    rw [hi, hd] at ih
    rw [hk] at ih'
    have hrest : (⟨.punctuation .openBrace, s⟩ :: r).drop (1 + n + 1 + k) = r'.drop k := by
      rw [show 1 + n + 1 + k = n + (k + 1) + 1 by omega, List.drop_succ_cons, ← List.drop_drop, hd,
        List.drop_succ_cons]
    rw [hrest]
    exact .block ih ih'
  | case5 word s r hs more k hk ih =>
    rw [hk] at ih
    rw [Nat.add_comm, List.drop_succ_cons]
    refine .skip ?_ (by simp) (by simp) ih
    simp [statementAt, hs]
  | case6 word s r st n hs more k hk ih =>
    rw [hk, List.drop_drop] at ih
    rw [show 1 + n + k = n + k + 1 by omega, List.drop_succ_cons]
    refine .statement (n := n + 1) ?_ ?_
    · simp [statementAt, hs]
    · rwa [List.drop_succ_cons]
  | case7 t r hclose hopen hword more k hk ih =>
    rw [hk] at ih
    rw [Nat.add_comm, List.drop_succ_cons]
    obtain ⟨token, s⟩ := t
    refine .skip ?_ ?_ ?_ ih
    · cases token with
      | keyword word => exact (hword word s rfl).elim
      | _ => rfl
    · rintro rfl
      exact hopen s rfl
    · rintro rfl
      exact hclose s rfl

theorem ItemsRun.atClose {ts rest : List PlacedToken} {is : List Item} (h : ItemsRun ts is rest) :
    AtClose rest := by
  induction h with
  | stop h => exact h
  | statement _ _ ih => exact ih
  | block _ _ _ ih => exact ih
  | unclosed _ _ => trivial
  | skip _ _ _ _ ih => exact ih

/-- How the outline comes about: items, and between them the braces that close nothing. -/
inductive OutlineRun : List PlacedToken → List Item → Prop
  | finish {ts is} : ItemsRun ts is [] → OutlineRun ts is
  | stray {ts is span r more} : ItemsRun ts is (⟨.punctuation .closeBrace, span⟩ :: r) →
      OutlineRun r more → OutlineRun ts (is ++ more)

theorem topLevel_run (ts : List PlacedToken) : OutlineRun ts (topLevel ts) := by
  fun_induction topLevel ts with
  | case1 ts is n hi hd =>
    have := items_run ts
    rw [hi, hd] at this
    exact .finish this
  | case2 ts is n hi t r hd ih =>
    have hrun := items_run ts
    rw [hi, hd] at hrun
    obtain ⟨token, span⟩ := t
    cases (show token = _ from hrun.atClose)
    exact .stray hrun ih

/-- The statements read at one token after the other. -/
def scan : List PlacedToken → List Statement
  | [] => []
  | t :: r => ((statementAt (t :: r)).map Prod.fst).toList ++ scan r

theorem scan_cons_of_none {t : PlacedToken} {r : List PlacedToken}
    (h : statementAt (t :: r) = none) : scan (t :: r) = scan r := by
  simp [scan, h]

theorem statementAt_eq_none {t : PlacedToken} {r : List PlacedToken}
    (h : ∀ word, t.token ≠ .keyword word) : statementAt (t :: r) = none := by
  obtain ⟨token, s⟩ := t
  cases token with
  | keyword word => exact absurd rfl (h word)
  | _ => rfl

/-- Tokens without a keyword begin no statement. -/
theorem scan_drop {ts : List PlacedToken} {n : Nat} (h : Covers isStatementToken ts n) :
    scan (ts.drop n) = scan ts := by
  induction n generalizing ts with
  | zero => rfl
  | succ n ih =>
    cases ts with
    | nil => rfl
    | cons t r =>
      have ht : isStatementToken t.token := h.all t (by simp)
      rw [List.drop_succ_cons, scan_cons_of_none]
      · exact ih ⟨Nat.le_of_succ_le_succ h.le, fun u hu => h.all u (by simp [hu])⟩
      · apply statementAt_eq_none
        intro word hw
        rw [hw] at ht
        cases ht

theorem exists_of_statementAt {ts : List PlacedToken} {s : Statement} {n : Nat}
    (h : statementAt ts = some (s, n)) : ∃ word span r k, ts = ⟨.keyword word, span⟩ :: r ∧
      statement word span r = some (s, k) ∧ n = k + 1 := by
  fun_cases statementAt ts with
  | case1 word span r =>
    simp only [statementAt, Option.map_eq_some_iff, Prod.mk.injEq, Prod.exists] at h
    obtain ⟨_, k, hs, rfl, rfl⟩ := h
    exact ⟨word, span, r, k, rfl, hs, rfl⟩
  | case2 => simp_all [statementAt]

theorem scan_statement {ts : List PlacedToken} {s : Statement} {n : Nat}
    (h : statementAt ts = some (s, n)) : scan ts = s :: scan (ts.drop n) := by
  obtain ⟨word, span, r, k, rfl, hs, rfl⟩ := exists_of_statementAt h
  rw [List.drop_succ_cons, scan_drop (covers_statement hs), scan, h]
  rfl

theorem scan_of_run {ts rest : List PlacedToken} {is : List Item} (h : ItemsRun ts is rest) :
    scan ts = Item.statements is ++ scan rest := by
  induction h with
  | stop _ => simp [Item.statements]
  | statement hs _ ih => simp [scan_statement hs, ih, Item.statements]
  | @block span r inner t r' more rest hi _ ih ih' =>
    -- the brace that ends the inner run begins no statement either
    have hclose : t.token = .punctuation .closeBrace := hi.atClose
    rw [scan_cons_of_none rfl, ih, scan_cons_of_none, ih', Item.statements, List.append_assoc]
    exact statementAt_eq_none (by simp [hclose])
  | unclosed _ ih => rw [scan_cons_of_none rfl, ih]
  | skip hn _ _ _ ih => rw [scan_cons_of_none hn, ih]

theorem statements_append (is js : List Item) :
    Item.statements (is ++ js) = Item.statements is ++ Item.statements js := by
  induction is with
  | nil => simp [Item.statements]
  | cons i is ih => cases i <;> simp [Item.statements, ih]

theorem scan_of_outline {ts : List PlacedToken} {is : List Item} (h : OutlineRun ts is) :
    scan ts = Item.statements is := by
  induction h with
  | finish h => simp [scan_of_run h, scan]
  | stray h _ ih => rw [statements_append, ← ih, scan_of_run h, scan_cons_of_none rfl]

/-- The single pass finds the statements of the outline. -/
theorem scan_eq_statements (ts : List PlacedToken) : scan ts = Item.statements (topLevel ts) :=
  scan_of_outline (topLevel_run ts)

def startsStatement : List PlacedToken → Bool
  | ⟨.keyword _, _⟩ :: ⟨.identifier _, _⟩ :: _ => true
  | _ => false

/-- The positions of the keywords that a name follows at once. -/
def statementStarts (ts : List PlacedToken) : List Nat :=
  (List.range ts.length).filter fun i => startsStatement (ts.drop i)

theorem isSome_declarator (ts : List PlacedToken) :
    (declarator ts).isSome ↔ ∃ name span r, ts = ⟨.identifier name, span⟩ :: r := by
  fun_cases declarator ts with
  | case1 name span r => simp
  | case2 _ h =>
    simp only [Option.isSome_none, Bool.false_eq_true, false_iff]
    rintro ⟨name, span, r, rfl⟩
    exact h name span r rfl

theorem isSome_statement (word : Keyword) (span : Text.Span) (ts : List PlacedToken) :
    (statement word span ts).isSome = (declarator ts).isSome := by
  unfold statement
  cases declarator ts <;> rfl

theorem isSome_statementAt (ts : List PlacedToken) :
    (statementAt ts).isSome = startsStatement ts := by
  fun_cases statementAt ts with
  | case1 word span r =>
    rw [Option.isSome_map, isSome_statement, Bool.eq_iff_iff, isSome_declarator]
    constructor
    · rintro ⟨name, span', r', rfl⟩
      rfl
    · intro h
      unfold startsStatement at h
      split at h
      · next he => cases he; exact ⟨_, _, _, rfl⟩
      · cases h
  | case2 _ h =>
    unfold startsStatement
    split
    · exact (h _ _ _ rfl).elim
    · rfl

theorem statementStarts_cons (t : PlacedToken) (r : List PlacedToken) :
    statementStarts (t :: r) =
      (if startsStatement (t :: r) then [0] else []) ++ (statementStarts r).map (· + 1) := by
  have hr : (List.range (t :: r).length) = 0 :: (List.range r.length).map (· + 1) :=
    List.range_succ_eq_map
  unfold statementStarts
  rw [hr, List.filter_cons, List.filter_map]
  split
  · next h => simp_all [Function.comp_def]
  · next h => simp_all [Function.comp_def]

/-- The single pass reads one statement at each start, and nothing else. -/
theorem map_some_scan (ts : List PlacedToken) :
    (scan ts).map some = (statementStarts ts).map fun i => (statementAt (ts.drop i)).map Prod.fst := by
  induction ts with
  | nil => rfl
  | cons t r ih =>
    rw [scan, statementStarts_cons, List.map_append, List.map_append, ih, List.map_map]
    congr 1
    have hs := isSome_statementAt (t :: r)
    cases h : statementAt (t :: r) with
    | none =>
      rw [h] at hs
      simp [← hs]
    | some sn =>
      rw [h] at hs
      simp [← hs, h]

end PathAudit.Parser
