import PathAudit.Proofs.Syntax.ReadOutline
import PathAudit.Proofs.Token.Layout

/-! Reading undoes writing. The text of an outline whose names are words is cut into the tokens of
the outline, and these are read as the outline again. -/

namespace PathAudit

open Token

theorem all_joined (mark : Punctuation) (parts : List (List Token)) :
    (joined mark parts).all isLegible = parts.all (·.all isLegible) := by
  cases parts with
  | nil => rfl
  | cons x xs =>
    rw [joined_cons, List.all_append, List.all_cons, List.all_flatMap]
    rfl

theorem QualifiedName.all_tokens (q : QualifiedName) :
    q.tokens.all isLegible = q.segments.all (isWord ·.name) := by
  rw [tokens, all_joined, List.all_map]
  congr 1
  funext i
  simp [isLegible]

theorem TypeExpr.all_tokens (t : TypeExpr) (ht : t.isPrintable) : t.tokens.all isLegible := by
  induction t using TypeExpr.induction with
  | reference name args ih =>
    rw [isPrintable, allPrintable_eq_all, Bool.and_eq_true] at ht
    obtain ⟨hname, hargs⟩ := ht
    rw [List.all_eq_true] at hargs
    cases args with
    | nil => rwa [tokens, QualifiedName.all_tokens]
    | cons t ts =>
      have hjoined : (joined .comma (t.tokens :: tokensEach ts)).all isLegible := by
        rw [tokensEach_eq_map, ← List.map_cons, all_joined, List.all_map, List.all_eq_true]
        exact fun u hu => ih u hu (hargs u hu)
      rw [tokens, List.all_append, QualifiedName.all_tokens, hname, List.all_cons, List.all_append,
        hjoined]
      rfl
  | array element ih =>
    rw [isPrintable, Bool.and_eq_true] at ht
    rw [tokens, List.all_append, ih ht.2]
    rfl
  | union members ih =>
    rw [isPrintable, allPrintable_eq_all, Bool.and_eq_true] at ht
    have hall := List.all_eq_true.1 ht.2
    rw [tokens, tokensEach_eq_map, all_joined, List.all_map, List.all_eq_true]
    exact fun u hu => ih u hu (hall u hu)
  | parenthesized inner ih =>
    rw [tokens, List.all_cons, List.all_append, ih ht]
    rfl
  | literal value => rfl

theorem Declarator.all_tokens (d : Declarator) (hd : d.isPrintable) : d.tokens.all isLegible := by
  rw [isPrintable, Bool.and_eq_true] at hd
  obtain ⟨hname, htype⟩ := hd
  have hann : d.ascriptionTokens.all isLegible := by
    rw [ascriptionTokens]
    cases ha : d.annotation with
    | none => rfl
    | some t =>
      rw [ha] at htype
      exact TypeExpr.all_tokens t htype
  have hinit : d.initializerTokens.all isLegible := by
    rw [initializerTokens]
    cases d.initializer with
    | none => rfl
    | some e => cases e <;> rfl
  rw [tokens, List.all_cons, List.all_append, hann, hinit, isLegible, hname]
  rfl

theorem Statement.all_tokens (s : Statement) (hs : s.isPrintable) : s.tokens.all isLegible := by
  rw [isPrintable, Bool.and_eq_true] at hs
  have hds := List.all_eq_true.1 hs.2
  have hjoined : (joined .comma (s.declarators.map Declarator.tokens)).all isLegible := by
    rw [all_joined, List.all_map, List.all_eq_true]
    exact fun d hd => d.all_tokens (hds d hd)
  rw [tokens, List.all_cons, List.all_append, hjoined]
  rfl

theorem Item.all_tokens (is : List Item) (his : ∀ st ∈ statements is, st.isPrintable) :
    (tokens is).all isLegible := by
  fun_induction statements is with
  | case1 => rw [tokens]; rfl
  | case2 s more ih =>
    have hmore := ih fun st hst => his st (List.mem_cons_of_mem _ hst)
    rw [tokens, List.all_append, s.all_tokens (his s (by simp)), hmore]
    rfl
  | case3 inner more ih ih' =>
    have hinner := ih fun st hst => his st (List.mem_append_left _ hst)
    have hmore := ih' fun st hst => his st (List.mem_append_right _ hst)
    rw [tokens, List.all_cons, List.all_append, hinner, List.all_cons, hmore]
    rfl

/-- A source text that an outline was written as is read as that outline, without errors. -/
theorem Module.outline_text (m : Module) (hm : m.isPrintable) :
    (Parsed.ofText m.text).outline.bare = m.bare ∧ (Parsed.ofText m.text).errors = [] := by
  have hstatements : ∀ st ∈ Item.statements m.items, st.isPrintable := List.all_eq_true.1 hm
  have hlegible := List.all_eq_true.1 (Item.all_tokens m.items hstatements)
  obtain ⟨htokens, herrors⟩ := Scan.ofText_spaced (Item.tokens m.items) hlegible
  refine ⟨?_, herrors⟩
  rw [bare, bare]
  exact congrArg Module.mk (Parser.topLevel_read m.items hstatements htokens)

/-- An outline with an array of a union among type arguments, and with a block. -/
def nestedOutline : Module where
  items := [
    .variable ⟨.const, [⟨⟨"m", default⟩,
      some (.reference ⟨[], ⟨"Map", default⟩⟩
        [.array (.parenthesized (.union [.reference ⟨[], ⟨"A", default⟩⟩ [], .literal "x"])),
          .reference ⟨[⟨"b", default⟩], ⟨"C", default⟩⟩ []]),
      some .other⟩], default⟩,
    .block [.variable ⟨.lexical, [⟨⟨"$", default⟩, none, some (.literal "q\t" default)⟩,
      ⟨⟨"n", default⟩, none, none⟩], default⟩]]

theorem outline_text_nested :
    let source := "const m : Map < ( A | \"x\" ) [ ] , b . C > = 0 ; " ++
      "\x7b let $ = \"q\\t\" , n ; \x7d"
    (Parsed.ofText source).outline.bare = nestedOutline ∧ (Parsed.ofText source).errors = [] := by
  intro source
  have hprintable : nestedOutline.isPrintable := by
    simp only [Module.isPrintable, nestedOutline, Item.statements]
    decide
  have htext : nestedOutline.text = source := by
    simp only [Module.text, nestedOutline, Item.tokens]
    decide +kernel
  have hbare : nestedOutline.bare = nestedOutline := by
    simp only [Module.bare, nestedOutline, Item.bare]
    rfl
  have h := nestedOutline.outline_text hprintable
  rwa [htext, hbare] at h

end PathAudit
