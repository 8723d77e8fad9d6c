import PathAudit.Toml.Value

/-! How the lines of a TOML document make up its tables. A table is defined once: headers and
dotted keys may pass through tables that came to be on the way, but not through values, and
nothing is added to a table in braces. -/

namespace PathAudit.Toml

/-- A line of a document: a value under a dotted key, or the header of a table or of one more
table in an array. The keys before the last are the way to it. -/
inductive Line
  | pair (way : List Key) (key : Key) (value : Value)
  | header (span : Text.Span) (inArray : Bool) (way : List Key) (key : Key)
deriving Repr

/-- Changes the table that a way leads to, tables on the way made where there are none. A dotted
key passes only through tables that came to be on the way; a header passes through any table but
one in braces, and through the last table of an array. `change` is told how the table that it is
given came to be. The key that first named a table on the way stays its key. -/
def Entries.change (byKey : Bool) (change : Origin → Entries → Option Entries) :
    Origin → Entries → List Key → Option Entries
  | origin, entries, [] => change origin entries
  | _, entries, k :: way =>
    match entries.entry? k.name with
    | none => do
      let origin := if byKey then Origin.dotted else Origin.implied
      let inner ← Entries.change byKey change origin [] way
      pure (entries.put k (.table k.span origin inner))
    | some (key, .table span origin inner) =>
      if origin = .braced ∨ (byKey ∧ origin = .header) then none
      else do
        let inner ← Entries.change byKey change origin inner way
        pure (entries.put key (.table span origin inner))
    | some (key, .array span true elements) =>
      match elements.getLast? with
      | some (.table tableSpan origin inner) => do
        let inner ← Entries.change byKey change origin inner way
        pure (entries.put key
          (.array span true (elements.dropLast ++ [.table tableSpan origin inner])))
      | _ => none
    | some _ => none

/-- Adds a value under a dotted key to a table. No value may be there yet. -/
def Entries.insert (entries : Entries) (way : List Key) (key : Key) (v : Value) :
    Option Entries :=
  entries.change true (fun origin inner =>
    if (way.isEmpty ∨ origin = .dotted) ∧ (inner.valueAt? key.name).isNone then
      some (inner.put key v)
    else none) .header way

/-- Adds the table of a header. One that came to be on the way to another keeps its entries and
takes the key of the header. An array of tables keeps the key of its first header. -/
def Entries.open (entries : Entries) (span : Text.Span) (inArray : Bool) (way : List Key)
    (key : Key) (fill : Entries → Option Entries) : Option Entries :=
  entries.change false (fun _ inner =>
    match inArray, inner.entry? key.name with
    | true, none => do
      pure (inner.put key (.array span true [.table span .header (← fill [])]))
    | true, some (key, .array first true elements) => do
      pure (inner.put key (.array first true (elements ++ [.table span .header (← fill [])])))
    | false, none => do pure (inner.put key (.table span .header (← fill [])))
    | false, some (_, .table _ .implied old) => do
      pure (inner.put key (.table span .header (← fill old)))
    | _, _ => none) .header way

def Entries.fill (entries : Entries) : List Line → Option Entries
  | .pair way key v :: lines => do (← entries.insert way key v).fill lines
  | _ => some entries

def Entries.openAll (entries : Entries) : List Line → Option Entries
  | [] => some entries
  | .pair _ _ _ :: lines => entries.openAll lines
  | .header span inArray way key :: lines => do
    (← entries.open span inArray way key (·.fill lines)).openAll lines

/-- The table that the lines of a document make up, unless they define something twice. -/
def Entries.ofLines (lines : List Line) : Option Entries := do
  (← Entries.fill [] lines).openAll lines

end PathAudit.Toml
