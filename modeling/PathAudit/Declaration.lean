import PathAudit.PathKind
import PathAudit.Syntax.Parser

/-! Path declarations: the declarators whose annotation names a marker type and whose
initializer is a string literal. -/

namespace PathAudit

/-- The name of the type that an annotation refers to, seen through parentheses: the last
segment of a qualified name. Unions, arrays and literal types have none. -/
def TypeExpr.declaredName : TypeExpr → Option String
  | .reference q _ => some q.last.name
  | .parenthesized inner => inner.declaredName
  | .array _ => none
  | .union _ => none
  | .literal _ => none

/-- A declaration that opted into path checking. The span is that of the literal, its quotes
included. -/
structure PathDeclaration where
  kind : PathKind
  name : String
  value : String
  span : Text.Span
deriving DecidableEq, Repr

def Declarator.pathDeclaration? (d : Declarator) : Option PathDeclaration :=
  match d.initializer with
  | some (.literal value span) => do
    let typeName ← (← d.annotation).declaredName
    let kind ← PathKind.ofMarker? typeName
    pure ⟨kind, d.name.name, value, span⟩
  | _ => none

def Module.pathDeclarations (m : Module) : List PathDeclaration :=
  m.declarators.filterMap Declarator.pathDeclaration?

end PathAudit
