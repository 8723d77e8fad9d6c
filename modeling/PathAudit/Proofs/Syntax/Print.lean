import PathAudit.Syntax.Parser
import PathAudit.Proofs.Text.Split

/-! Writing an outline. The tokens of an outline are those of its statements and blocks in order,
and its text is the tokens with a space between each two. What is written says nothing of places,
so an outline is compared without them. -/

namespace PathAudit

open Token

def Identifier.bare (i : Identifier) : Identifier := ⟨i.name, default⟩

def QualifiedName.bare (q : QualifiedName) : QualifiedName :=
  ⟨q.qualifiers.map Identifier.bare, q.last.bare⟩

/-- The tokens of some parts with a mark between each two. -/
def joined (mark : Punctuation) (parts : List (List Token)) : List Token :=
  [.punctuation mark].intercalate parts

def QualifiedName.tokens (q : QualifiedName) : List Token :=
  joined .dot (q.segments.map fun i => [.identifier i.name])

namespace TypeExpr

mutual

def bare : TypeExpr → TypeExpr
  | reference name args => reference name.bare (bareAll args)
  | array element => array element.bare
  | union members => union (bareAll members)
  | parenthesized inner => parenthesized inner.bare
  | literal value => literal value

def bareAll : List TypeExpr → List TypeExpr
  | [] => []
  | t :: ts => t.bare :: bareAll ts

end

mutual

def tokens : TypeExpr → List Token
  | reference name [] => name.tokens
  | reference name (t :: ts) =>
    name.tokens ++ .punctuation .less :: (joined .comma (t.tokens :: tokensEach ts) ++
      [.punctuation .greater])
  | array element => element.tokens ++ [.punctuation .openBracket, .punctuation .closeBracket]
  | union members => joined .pipe (tokensEach members)
  | parenthesized inner =>
    .punctuation .openParen :: (inner.tokens ++ [.punctuation .closeParen])
  | literal value => [.string value]

def tokensEach : List TypeExpr → List (List Token)
  | [] => []
  | t :: ts => t.tokens :: tokensEach ts

end

def isUnion : TypeExpr → Bool
  | union _ => true
  | _ => false

end TypeExpr

/-- The names that a declaration can have: those that are no keywords. -/
def isWord (name : String) : Bool :=
  match name.toList with
  | [] => false
  | c :: r => Lexeme.isNameStart c && r.all Lexeme.isNamePart && (Keyword.ofText? name).isNone

namespace TypeExpr

mutual

/-- A type can be written when its names are words, and when no union stands where it would be
read as something else: as a part of a union around it, or alone, or before brackets. -/
def isPrintable : TypeExpr → Bool
  | reference name args => name.segments.all (isWord ·.name) && allPrintable args
  | array element => !element.isUnion && element.isPrintable
  | union members => 2 ≤ members.length && members.all (!·.isUnion) && allPrintable members
  | parenthesized inner => inner.isPrintable
  | literal _ => true

def allPrintable : List TypeExpr → Bool
  | [] => true
  | t :: ts => t.isPrintable && allPrintable ts

end

theorem bareAll_eq_map (ts : List TypeExpr) : bareAll ts = ts.map bare := by
  induction ts with
  | nil => rfl
  | cons t ts ih => rw [bareAll, ih, List.map_cons]

theorem tokensEach_eq_map (ts : List TypeExpr) : tokensEach ts = ts.map tokens := by
  induction ts with
  | nil => rfl
  | cons t ts ih => rw [tokensEach, ih, List.map_cons]

theorem allPrintable_eq_all (ts : List TypeExpr) : allPrintable ts = ts.all isPrintable := by
  induction ts with
  | nil => rfl
  | cons t ts ih => rw [allPrintable, ih, List.all_cons]

/-- What holds of a type when it holds of the types in it holds of every type. -/
@[elab_as_elim]
theorem induction {P : TypeExpr → Prop}
    (reference : ∀ name args, (∀ t ∈ args, P t) → P (reference name args))
    (array : ∀ element, P element → P (array element))
    (union : ∀ members, (∀ t ∈ members, P t) → P (union members))
    (parenthesized : ∀ inner, P inner → P (parenthesized inner))
    (literal : ∀ value, P (literal value)) (t : TypeExpr) : P t := by
  refine TypeExpr.rec (motive_1 := P) (motive_2 := fun ts => ∀ t ∈ ts, P t) reference array union
    parenthesized literal ?_ ?_ t
  · intro t ht
    cases ht
  · intro t ts ht hts u hu
    rcases List.mem_cons.1 hu with rfl | hu
    · exact ht
    · exact hts u hu

end TypeExpr

def Initializer.bare : Initializer → Initializer
  | .literal value _ => .literal value default
  | .other => .other

/-- How an initializer is written: whatever it was, if it is no literal, as a number. -/
def Initializer.tokens : Initializer → List Token
  | .literal value _ => [.string value]
  | .other => [.number]

namespace Declarator

def bare (d : Declarator) : Declarator :=
  ⟨d.name.bare, d.annotation.map TypeExpr.bare, d.initializer.map Initializer.bare⟩

def ascriptionTokens (d : Declarator) : List Token :=
  (d.annotation.map fun t => .punctuation .colon :: t.tokens).getD []

def initializerTokens (d : Declarator) : List Token :=
  (d.initializer.map fun e => .punctuation .equals :: e.tokens).getD []

def tokens (d : Declarator) : List Token :=
  .identifier d.name.name :: (d.ascriptionTokens ++ d.initializerTokens)

def isPrintable (d : Declarator) : Bool :=
  isWord d.name.name && d.annotation.all TypeExpr.isPrintable

end Declarator

namespace Statement

def bare (s : Statement) : Statement :=
  ⟨s.keyword, s.declarators.map Declarator.bare, default⟩

def tokens (s : Statement) : List Token :=
  .keyword s.keyword :: (joined .comma (s.declarators.map Declarator.tokens) ++
    [.punctuation .semicolon])

def isPrintable (s : Statement) : Bool :=
  !s.declarators.isEmpty && s.declarators.all Declarator.isPrintable

end Statement

namespace Item

def bare : List Item → List Item
  | [] => []
  | .variable s :: rest => .variable s.bare :: bare rest
  | .block inner :: rest => .block (bare inner) :: bare rest

def tokens : List Item → List Token
  | [] => []
  | .variable s :: rest => s.tokens ++ tokens rest
  | .block inner :: rest =>
    .punctuation .openBrace :: (tokens inner ++ .punctuation .closeBrace :: tokens rest)

end Item

/-- How a token is written. Any number will do for one. -/
def Token.written : Token → String
  | .number => "0"
  | t => t.text

namespace Module

def bare (m : Module) : Module := ⟨Item.bare m.items⟩

def text (m : Module) : String :=
  " ".intercalate ((Item.tokens m.items).map Token.written)

def isPrintable (m : Module) : Bool :=
  (Item.statements m.items).all Statement.isPrintable

end Module

end PathAudit
