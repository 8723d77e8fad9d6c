import PathAudit.Token.Basic

/-! The outline of a source text: its variable statements and the braced blocks that hold them,
all else dropped. -/

namespace PathAudit

structure Identifier where
  name : String
  span : Text.Span
deriving DecidableEq, Repr

/-- A name with the names that qualify it, outermost first: `a.b.C` is `C` qualified by `a` and
`b`. -/
structure QualifiedName where
  qualifiers : List Identifier
  last : Identifier
deriving DecidableEq, Repr

def QualifiedName.segments (q : QualifiedName) : List Identifier :=
  q.qualifiers ++ [q.last]

/-- The name whose segments are `first` and then those of `more`. -/
def QualifiedName.ofSegments (first : Identifier) : List Identifier → QualifiedName
  | [] => ⟨[], first⟩
  | next :: more =>
    let q := ofSegments next more
    ⟨first :: q.qualifiers, q.last⟩

inductive TypeExpr
  | reference (name : QualifiedName) (arguments : List TypeExpr)
  | array (element : TypeExpr)
  | union (members : List TypeExpr)
  | parenthesized (inner : TypeExpr)
  | literal (value : String)
deriving Repr, BEq

/-- What a declarator is initialized with: a string literal that is the whole expression, its
quotes within the span, or anything else. -/
inductive Initializer
  | literal (value : String) (span : Text.Span)
  | other
deriving DecidableEq, Repr

structure Declarator where
  name : Identifier
  annotation : Option TypeExpr
  initializer : Option Initializer
deriving Repr, BEq

structure Statement where
  keyword : Keyword
  declarators : List Declarator
  span : Text.Span
deriving Repr, BEq

inductive Item
  | variable (statement : Statement)
  | block (items : List Item)
deriving Repr, BEq

structure Module where
  items : List Item
deriving Repr, BEq

/-- The variable statements of some items in source order, at any depth. -/
def Item.statements : List Item → List Statement
  | [] => []
  | .variable s :: rest => s :: statements rest
  | .block inner :: rest => statements inner ++ statements rest

def Module.declarators (m : Module) : List Declarator :=
  (Item.statements m.items).flatMap Statement.declarators

@[simp] theorem QualifiedName.segments_ofSegments (first : Identifier) (more : List Identifier) :
    (ofSegments first more).segments = first :: more := by
  induction more generalizing first with
  | nil => rfl
  | cons next more ih =>
    have := ih next
    simp only [segments] at this
    simp [ofSegments, segments, this]

end PathAudit
