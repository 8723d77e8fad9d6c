import PathAudit.Proofs.Syntax.Outline

/-! The grammar of outlines, with ordered choice and repetition that may fail and go back, and the
proof that the readers answer what the grammar answers. A block that is never closed fails, and its
brace is read again as a token to pass over; the readers reach the same items without going back.
The grammar refuses no tokens, so the errors of a source text are the pieces that are no tokens. -/

namespace PathAudit.Grammar

open PathAudit.Parser

/-- A parsing expression over tokens, whose answer is a list of items. -/
inductive Rule
  /-- A variable statement. -/
  | statement
  /-- One token that is accepted, and gives no item. -/
  | token (accepts : Token → Bool)
  /-- The end of the tokens. -/
  | finish
  | sequence (first second : Rule)
  /-- The second is tried at the same place when the first fails. -/
  | choice (first second : Rule)
  /-- As often as possible. -/
  | repeated (rule : Rule)
  /-- Takes nothing, where the rule fails. -/
  | absent (rule : Rule)
  /-- What the rule gives, as one block. -/
  | block (rule : Rule)
  /-- An item, by its own rule. -/
  | item

namespace Rule

def just (t : Token) : Rule := token (· == t)

def braced : Rule :=
  block (sequence (just (.punctuation .openBrace))
    (sequence (repeated item) (just (.punctuation .closeBrace))))

/-- A token that is passed over. A closing brace is not, since it may close a block. -/
def skipped : Rule :=
  sequence (absent (just (.punctuation .closeBrace))) (token fun _ => true)

def itemBody : Rule := choice statement (choice braced skipped)

def outline : Rule :=
  sequence (repeated (choice item (just (.punctuation .closeBrace)))) finish

end Rule

open Rule

/-- What a rule answers on tokens: the items and the tokens that are left, or nothing where it
fails. -/
inductive Reads : Rule → List PlacedToken → Option (List Item × List PlacedToken) → Prop
  | statement {ts s n} : statementAt ts = some (s, n) →
      Reads .statement ts (some ([.variable s], ts.drop n))
  | statement_fails {ts} : statementAt ts = none → Reads .statement ts none
  | token {accepts t r} : accepts t.token = true → Reads (.token accepts) (t :: r) (some ([], r))
  | token_fails {accepts ts} : (∀ t ∈ ts.head?, accepts t.token = false) →
      Reads (.token accepts) ts none
  | finish : Reads .finish [] (some ([], []))
  | finish_fails {t r} : Reads .finish (t :: r) none
  | sequence {a b ts is ts' js ts''} : Reads a ts (some (is, ts')) →
      Reads b ts' (some (js, ts'')) → Reads (.sequence a b) ts (some (is ++ js, ts''))
  | first_fails {a b ts} : Reads a ts none → Reads (.sequence a b) ts none
  | second_fails {a b ts is ts'} : Reads a ts (some (is, ts')) → Reads b ts' none →
      Reads (.sequence a b) ts none
  | choice {a b ts x} : Reads a ts (some x) → Reads (.choice a b) ts (some x)
  | otherwise {a b ts x} : Reads a ts none → Reads b ts x → Reads (.choice a b) ts x
  | again {a ts is ts' js ts''} : Reads a ts (some (is, ts')) →
      Reads (.repeated a) ts' (some (js, ts'')) → Reads (.repeated a) ts (some (is ++ js, ts''))
  | done {a ts} : Reads a ts none → Reads (.repeated a) ts (some ([], ts))
  | absent {a ts} : Reads a ts none → Reads (.absent a) ts (some ([], ts))
  | absent_fails {a ts x} : Reads a ts (some x) → Reads (.absent a) ts none
  | block {a ts is ts'} : Reads a ts (some (is, ts')) →
      Reads (.block a) ts (some ([.block is], ts'))
  | block_fails {a ts} : Reads a ts none → Reads (.block a) ts none
  | item {ts x} : Reads itemBody ts x → Reads .item ts x

namespace Reads

variable {a : Rule} {ts r : List PlacedToken} {x y : Option (List Item × List PlacedToken)}

theorem unique (h : Reads a ts x) (h' : Reads a ts y) : x = y := by
  induction h generalizing y with
  | statement hs => cases h' <;> simp_all
  | statement_fails hs => cases h' <;> simp_all
  | token ht => cases h' <;> simp_all
  | token_fails ht => cases h' <;> simp_all
  | finish => cases h'; rfl
  | finish_fails => cases h'; rfl
  | sequence _ _ iha ihb =>
    cases h' with
    | sequence ha hb => cases iha ha; cases ihb hb; rfl
    | first_fails ha => cases iha ha
    | second_fails ha hb => cases iha ha; cases ihb hb
  | first_fails _ iha =>
    cases h' with
    | sequence ha hb => cases iha ha
    | first_fails ha => rfl
    | second_fails ha hb => cases iha ha
  | second_fails _ _ iha ihb =>
    cases h' with
    | sequence ha hb => cases iha ha; cases ihb hb
    | first_fails ha => rfl
    | second_fails ha hb => rfl
  | choice _ iha =>
    cases h' with
    | choice ha => exact iha ha
    | otherwise ha hb => cases iha ha
  | otherwise _ _ iha ihb =>
    cases h' with
    | choice ha => cases iha ha
    | otherwise ha hb => exact ihb hb
  | again _ _ iha ihr =>
    cases h' with
    | again ha hr => cases iha ha; cases ihr hr; rfl
    | done ha => cases iha ha
  | done _ iha =>
    cases h' with
    | again ha hr => cases iha ha
    | done ha => rfl
  | absent _ iha =>
    cases h' with
    | absent ha => rfl
    | absent_fails ha => cases iha ha
  | absent_fails _ iha =>
    cases h' with
    | absent ha => cases iha ha
    | absent_fails ha => rfl
  | block _ iha =>
    cases h' with
    | block ha => cases iha ha; rfl
    | block_fails ha => cases iha ha
  | block_fails _ iha =>
    cases h' with
    | block ha => cases iha ha
    | block_fails ha => rfl
  | item _ ih => cases h' with | item h' => exact ih h'

theorem just {t : PlacedToken} {k : Token} (h : t.token = k) :
    Reads (.just k) (t :: r) (some ([], r)) :=
  .token (by simp [h])

theorem just_fails {t : Token} (h : ∀ u ∈ ts.head?, u.token ≠ t) : Reads (.just t) ts none :=
  .token_fails fun u hu => by simpa using h u hu

theorem braced_fails (h : ∀ t ∈ ts.head?, t.token ≠ .punctuation .openBrace) :
    Reads braced ts none :=
  .block_fails (.first_fails (just_fails h))

/-- A brace whose contents run to the end opens no block. -/
theorem braced_fails_of_unclosed (span : Text.Span) {is : List Item}
    (h : Reads (.repeated .item) r (some (is, []))) :
    Reads braced (⟨.punctuation .openBrace, span⟩ :: r) none :=
  .block_fails (.second_fails (just rfl) (.second_fails h (just_fails (by simp))))

theorem braced_of_closed (span : Text.Span) {t : PlacedToken} {is : List Item}
    (ht : t.token = .punctuation .closeBrace)
    (h : Reads (.repeated .item) ts (some (is, t :: r))) :
    Reads braced (⟨.punctuation .openBrace, span⟩ :: ts) (some ([.block is], r)) := by
  have hopen : Reads (.just (.punctuation .openBrace)) (⟨.punctuation .openBrace, span⟩ :: ts)
      (some ([], ts)) := just rfl
  have hbody := hopen.sequence (h.sequence (just ht))
  rw [List.nil_append, List.append_nil] at hbody
  exact .block hbody

theorem item_of_statement {s : Statement} {n : Nat} (h : statementAt ts = some (s, n)) :
    Reads .item ts (some ([.variable s], ts.drop n)) :=
  .item (.choice (.statement h))

theorem item_of_braced {span : Text.Span}
    (h : Reads braced (⟨.punctuation .openBrace, span⟩ :: ts) (some ([.block is], r))) :
    Reads .item (⟨.punctuation .openBrace, span⟩ :: ts) (some ([.block is], r)) :=
  .item (.otherwise (.statement_fails rfl) (.choice h))

theorem item_of_skipped {t : PlacedToken} (hs : statementAt (t :: r) = none)
    (hb : Reads braced (t :: r) none) (ht : t.token ≠ .punctuation .closeBrace) :
    Reads .item (t :: r) (some ([], r)) := by
  have habsent : Reads (.absent (.just (.punctuation .closeBrace))) (t :: r) (some ([], t :: r)) :=
    .absent (just_fails (by simpa using ht))
  exact .item (.otherwise (.statement_fails hs) (.otherwise hb (.sequence habsent (.token rfl))))

theorem item_fails (h : AtClose ts) : Reads .item ts none := by
  cases ts with
  | nil =>
    have hany : Reads (.token fun _ => true) [] none := .token_fails (by simp)
    refine .item (.otherwise (.statement_fails rfl) (.otherwise (braced_fails (by simp)) ?_))
    exact .second_fails (.absent (just_fails (by simp))) hany
  | cons t r =>
    have ht : t.token = .punctuation .closeBrace := h
    have hs : statementAt (t :: r) = none := statementAt_eq_none (by simp [ht])
    refine .item (.otherwise (.statement_fails hs) (.otherwise (braced_fails (by simp [ht])) ?_))
    exact .first_fails (.absent_fails (just ht))

/-- Any repetition that takes items goes over them as the reader does. It tries the blocks that the
reader never opens, and goes back. -/
theorem repeated_of_itemsRun {a : Rule} {rest rest' : List PlacedToken} {is js : List Item}
    (ha : ∀ ts x, Reads .item ts (some x) → Reads a ts (some x)) (h : ItemsRun ts is rest)
    (hrest : Reads (.repeated a) rest (some (js, rest'))) :
    Reads (.repeated a) ts (some (is ++ js, rest')) := by
  induction h generalizing a js rest' with
  | stop _ => exact hrest
  | statement hs _ ih => simpa using (ha _ _ (item_of_statement hs)).again (ih ha hrest)
  | @block span r inner t r' more rest hi _ ih ih' =>
    have hinner := ih (fun _ _ => id) (.done (item_fails hi.atClose))
    rw [List.append_nil] at hinner
    have hblock := item_of_braced (braced_of_closed span hi.atClose hinner)
    simpa using (ha _ _ hblock).again (ih' ha hrest)
  | @unclosed span r inner hi ih =>
    -- the block fails at the end, and the brace is passed over at the second reading
    have hinner := ih (fun _ _ => id) (.done (item_fails trivial))
    rw [List.append_nil] at hinner
    have hskip := item_of_skipped rfl (braced_fails_of_unclosed span hinner) (by simp)
    simpa using (ha _ _ hskip).again (ih ha hrest)
  | skip hs ho hc _ ih =>
    have hskip := item_of_skipped hs (braced_fails (by simpa using ho)) hc
    simpa using (ha _ _ hskip).again (ih ha hrest)

/-- What stands between items at the top level. -/
theorem stray_of_close {t : PlacedToken} (ht : t.token = .punctuation .closeBrace) :
    Reads (.choice .item (.just (.punctuation .closeBrace))) (t :: r) (some ([], r)) :=
  .otherwise (item_fails ht) (just ht)

theorem of_outlineRun {is : List Item} (h : OutlineRun ts is) :
    Reads (.repeated (.choice .item (.just (.punctuation .closeBrace)))) ts (some (is, [])) := by
  have hitem : ∀ ts x, Reads .item ts (some x) →
      Reads (.choice .item (.just (.punctuation .closeBrace))) ts (some x) := fun _ _ => .choice
  induction h with
  | finish h =>
    have hend : Reads (.choice .item (.just (.punctuation .closeBrace))) [] none :=
      .otherwise (item_fails trivial) (just_fails (by simp))
    have := repeated_of_itemsRun hitem h (.done hend)
    rwa [List.append_nil] at this
  | stray h _ ih => exact repeated_of_itemsRun hitem h (.again (stray_of_close rfl) ih)

/-- The grammar takes every token sequence to its end, and answers what the reader answers. -/
theorem outline_iff : Reads outline ts x ↔ x = some (topLevel ts, []) := by
  have h : Reads outline ts (some (topLevel ts ++ [], [])) :=
    .sequence (of_outlineRun (topLevel_run ts)) .finish
  rw [List.append_nil] at h
  constructor
  · intro h'
    exact h'.unique h
  · rintro rfl
    exact h

end Reads

inductive SyntaxError
  /-- A piece of the text is no token. -/
  | unrecognized (e : Unrecognized)
  /-- The grammar refuses the tokens. -/
  | refused
deriving DecidableEq

/-- The errors of a source text, first those of its scan, when the grammar gives this answer on the
tokens. -/
def syntaxErrors (s : Scan) (answer : Option (List Item × List PlacedToken)) : List SyntaxError :=
  s.errors.map .unrecognized ++ if answer.isNone then [.refused] else []

/-- No code around a declaration hides it. The grammar takes every token sequence to its end, so
that a source text has no errors but those of its scan, and the statements of the outline, blocks
opened in their place, are those read at the keywords that a name follows, each from the tokens
that begin there. -/
theorem statement_read_at_every_start :
    (∀ ts x, Reads outline ts x ↔ x = some (topLevel ts, [])) ∧
    (∀ source, ∃ x, Reads outline (Scan.ofText source).tokens x ∧
      x = some ((Parsed.ofText source).outline.items, []) ∧
      syntaxErrors (Scan.ofText source) x = (Parsed.ofText source).errors.map .unrecognized ∧
      (Parsed.ofText source).errors = (Scan.ofText source).errors) ∧
    (∀ ts, (Item.statements (topLevel ts)).map some =
      (statementStarts ts).map fun i => (statementAt (ts.drop i)).map Prod.fst) := by
  refine ⟨fun ts x => Reads.outline_iff, ?_, ?_⟩
  · intro source
    refine ⟨_, Reads.outline_iff.2 rfl, rfl, ?_, rfl⟩
    simp [syntaxErrors, Parsed.ofText]
  · intro ts
    rw [← scan_of_outline (topLevel_run ts), map_some_scan]

end PathAudit.Grammar
