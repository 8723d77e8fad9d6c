import PathAudit.Diagnostic
import PathAudit.Json.Value

/-! Diagnostics as JSON objects. -/

namespace PathAudit

namespace Extent

/-- Offsets and lengths are below this, which 64 bits hold. -/
def bound : Nat := 18446744073709551616

def toJson (e : Extent) : Json :=
  .object [("start", .integer e.start), ("length", .integer e.length)]

def ofJson (v : Json) : Except DecodeError Extent := do
  let number := Json.toNat bound "usize"
  match v with
  | .object members =>
    let (start, length) ← (Json.sortMembers members).foldlM (fun (s, l) (key, v) => do
      if key = "start" then pure (some (← number v), l)
      else if key = "length" then pure (s, some (← number v))
      else pure (s, l)) ((none, none) : Option Nat × Option Nat)
    let some start := start | throw (.missingField "start")
    let some length := length | throw (.missingField "length")
    pure ⟨start, length⟩
  | .array elements =>
    let part := fun (i : Nat) => do
      let some v := elements[i]? | throw (.invalidLength i "struct TextSpan with 2 elements")
      number v
    let e : Extent := ⟨← part 0, ← part 1⟩
    if elements.length > 2 then
      throw (.invalidLength elements.length "fewer elements in array")
    pure e
  | v => throw (.invalidType v.found "struct TextSpan")

end Extent

namespace Diagnostic

def toJson (d : Diagnostic) : Json :=
  .object [
    ("category", .string d.category.name),
    ("code", .integer d.code),
    ("message", .string d.message),
    ("file_name", (d.fileName.map Json.string).getD .null),
    ("span", (d.extent.map Extent.toJson).getD .null)]

structure Draft where
  category : Option Category
  code : Option Nat
  message : Option String
  fileName : Option String
  extent : Option Extent

def codeBound : Nat := 4294967296

def Draft.read (d : Draft) (member : String × Json) : Except DecodeError Draft := do
  let (key, v) := member
  if key = "category" then
    pure { d with category := some (← v.toVariant Category.all Category.name) }
  else if key = "code" then pure { d with code := some (← v.toNat codeBound "u32") }
  else if key = "message" then pure { d with message := some (← v.toText) }
  else if key = "file_name" then pure { d with fileName := ← v.toOption Json.toText }
  else if key = "span" then pure { d with extent := ← v.toOption Extent.ofJson }
  else pure d

/-- The diagnostic of a draft. It may lack the file name and the extent only. -/
def Draft.finish (d : Draft) : Except DecodeError Diagnostic := do
  let some category := d.category | throw (.missingField "category")
  let some code := d.code | throw (.missingField "code")
  let some message := d.message | throw (.missingField "message")
  pure ⟨category, code, message, d.fileName, d.extent⟩

/-- The names of the members, in the order in which an array gives them. -/
def memberNames : List String := ["category", "code", "message", "file_name", "span"]

def ofJson (v : Json) : Except DecodeError Diagnostic := do
  let empty : Draft := ⟨none, none, none, none, none⟩
  match v with
  | .object members => (← (Json.sortMembers members).foldlM Draft.read empty).finish
  | .array elements =>
    let draft ← (memberNames.zip elements).foldlM Draft.read empty
    if elements.length < 5 then
      throw (.invalidLength elements.length "struct Diagnostic with 5 elements")
    if elements.length > 5 then
      throw (.invalidLength elements.length "fewer elements in array")
    draft.finish
  | v => throw (.invalidType v.found "struct Diagnostic")

end Diagnostic

end PathAudit
