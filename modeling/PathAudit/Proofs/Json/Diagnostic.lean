import PathAudit.Json.Diagnostic
import PathAudit.Proofs.Json.Members

/-! Diagnostics are read back from the objects that they are written as, when their numbers are within
the bounds of the reader. -/

namespace PathAudit

theorem Json.toNat_integer {bound n : Nat} {expected : String} (h : n < bound) :
    Json.toNat bound expected (.integer n) = .ok n := by
  have hbounds : (0 : Int) ≤ n ∧ (n : Int) < bound := ⟨Int.natCast_nonneg n, Int.ofNat_lt.2 h⟩
  rw [Json.toNat, if_pos hbounds, Int.toNat_natCast]

theorem Extent.ofJson_toJson (e : Extent) (hstart : e.start < bound) (hlength : e.length < bound) :
    ofJson e.toJson = .ok e := by
  have hkeys : ["length", "start"].Pairwise (· < ·) := by decide
  have hsorted : Json.sortMembers [("start", .integer e.start), ("length", .integer e.length)] =
      [("length", .integer e.length), ("start", .integer e.start)] :=
    Json.sortMembers_eq_of_perm (.swap _ _ _) hkeys
  rw [toJson, ofJson]
  simp only [hsorted, List.foldlM_cons, List.foldlM_nil, Json.toNat_integer hlength,
    Json.toNat_integer hstart]
  rfl

namespace Diagnostic

namespace Draft

variable (draft : Draft)

theorem read_category (c : Category) :
    draft.read ("category", .string c.name) = .ok { draft with category := some c } := by
  cases c <;> rfl

theorem read_code {code : Nat} (h : code < codeBound) :
    draft.read ("code", .integer code) = .ok { draft with code := some code } := by
  simp only [read, Json.toNat_integer h, String.reduceEq, if_false, if_true]
  rfl

theorem read_fileName (name : Option String) :
    draft.read ("file_name", (name.map Json.string).getD .null) =
      .ok { draft with fileName := name } := by
  cases name <;> rfl

theorem read_message (message : String) :
    draft.read ("message", .string message) = .ok { draft with message := some message } := rfl

theorem read_extent {extent : Option Extent}
    (h : ∀ e ∈ extent, e.start < Extent.bound ∧ e.length < Extent.bound) :
    draft.read ("span", (extent.map Extent.toJson).getD .null) =
      .ok { draft with extent := extent } := by
  cases extent with
  | none => rfl
  | some e =>
    obtain ⟨hstart, hlength⟩ := h e rfl
    show ((Extent.ofJson e.toJson).map some >>= fun x => pure { draft with extent := x }) = _
    rw [e.ofJson_toJson hstart hlength]
    rfl

end Draft

theorem ofJson_toJson (d : Diagnostic) (hcode : d.code < codeBound)
    (hextent : ∀ e ∈ d.extent, e.start < Extent.bound ∧ e.length < Extent.bound) :
    ofJson d.toJson = .ok d := by
  have hkeys : ["category", "code", "file_name", "message", "span"].Pairwise (· < ·) := by decide
  have hsorted : Json.sortMembers [("category", .string d.category.name), ("code", .integer d.code),
        ("message", .string d.message), ("file_name", (d.fileName.map Json.string).getD .null),
        ("span", (d.extent.map Extent.toJson).getD .null)] =
      [("category", .string d.category.name), ("code", .integer d.code),
        ("file_name", (d.fileName.map Json.string).getD .null), ("message", .string d.message),
        ("span", (d.extent.map Extent.toJson).getD .null)] :=
    Json.sortMembers_eq_of_perm (.cons _ (.cons _ (.swap _ _ _))) hkeys
  rw [toJson, ofJson]
  simp only [hsorted, List.foldlM_cons, List.foldlM_nil, Draft.read_category, Draft.read_code _ hcode,
    Draft.read_fileName, Draft.read_message, Draft.read_extent _ hextent]
  rfl

theorem mapM_ofJson_toJson (ds : List Diagnostic) (h : ∀ d ∈ ds, d.code < codeBound ∧
    ∀ e ∈ d.extent, e.start < Extent.bound ∧ e.length < Extent.bound) :
    (ds.map toJson).mapM ofJson = .ok ds := by
  induction ds with
  | nil => rfl
  | cons d ds ih =>
    obtain ⟨⟨hcode, hextent⟩, hds⟩ := List.forall_mem_cons.1 h
    rw [List.map_cons, List.mapM_cons, ofJson_toJson d hcode hextent, ih hds]
    rfl

end Diagnostic

end PathAudit
