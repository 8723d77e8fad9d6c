import PathAudit.Config.File

/-! What the configuration file of a project gives. The entries of the table of settings are read by
ascending key, which keeps those of one name in their order; each setting that the file does not give
has its default. -/

namespace PathAudit

variable {α : Type} {disk : Disk} {root : String} {c c' : Config}

/-- Sorting keeps the order among elements of which none comes before another. -/
theorem filter_mergeSort {le : α → α → Bool} {p : α → Bool}
    (trans : ∀ a b c, le a b → le b c → le a c) (total : ∀ a b, le a b || le b a)
    (h : ∀ a b, p a → p b → le a b) (l : List α) :
    (l.mergeSort le).filter p = l.filter p := by
  have hordered : (l.filter p).Pairwise fun a b => le a b := by
    apply List.Pairwise.imp_of_mem _ (List.pairwise_of_forall fun _ _ => trivial)
    intro a b ha hb _
    exact h a b (List.mem_filter.1 ha).2 (List.mem_filter.1 hb).2
  have hsub : (l.filter p).Sublist ((l.mergeSort le).filter p) := by
    have hsub := (List.sublist_mergeSort trans total hordered List.filter_sublist).filter p
    simpa [List.filter_filter] using hsub
  exact (hsub.eq_of_length ((List.mergeSort_perm l le).filter p).length_eq.symm).symm

theorem exists_of_bind_eq_ok {ε β : Type} {x : Except ε α} {f : α → Except ε β} {b : β}
    (h : (x >>= f) = .ok b) : ∃ a, x = .ok a ∧ f a = .ok b := by
  cases x with
  | error e => cases h
  | ok a => exact ⟨a, rfl, h⟩

theorem exists_of_map_eq_ok {ε β : Type} {x : Except ε α} {f : α → β} {b : β}
    (h : f <$> x = .ok b) : ∃ a, x = .ok a ∧ f a = b := by
  cases x with
  | error e => cases h
  | ok a => exact ⟨a, rfl, Except.ok.inj h⟩

theorem eq_ok_of_mapError_eq_ok {ε ε' : Type} {x : Except ε α} {f : ε → ε'} {a : α}
    (h : x.mapError f = .ok a) : x = .ok a := by
  cases x with
  | error e => cases h
  | ok b => exact congrArg _ (Except.ok.inj h)

/-- A value that may be missing is decoded to one that may be missing. -/
theorem eq_bind_of_mapM_eq_ok {ε β : Type} {v : Option β} {f : β → Except ε α} {r : Option α}
    (h : v.mapM f = .ok r) : r = v.bind fun b => (f b).toOption := by
  cases v with
  | none =>
    cases h
    rfl
  | some b =>
    rw [Option.mapM_some] at h
    obtain ⟨a, ha, rfl⟩ := exists_of_map_eq_ok h
    simp [ha, Except.toOption]

namespace Toml

variable {name : String} {decode : Value → Except Fault α} {entries : Entries}

/-- The values under a name that can be decoded. A document has no more than one value there. -/
def Entries.decoded (entries : Entries) (name : String) (decode : Value → Except Fault α) :
    List α :=
  (entries.filter (·.1.name == name)).filterMap fun e => (decode e.2).toOption

/-- What a table gives under a name, and an array at a place. -/
def Value.given? (v : Value) (name : String) (place : Nat) (decode : Value → Except Fault α) :
    Option α :=
  match v with
  | .table _ _ entries => (Entries.decoded entries name decode).getLast?
  | .array _ _ elements => elements[place]?.bind fun w => (decode w).toOption
  | _ => none

theorem Entries.decoded_mergeSort (entries : Entries) :
    decoded (entries.mergeSort fun a b => decide (a.1.name ≤ b.1.name)) name decode =
      decoded entries name decode := by
  -- Entries of one name are as small as one another, so sorting keeps their order.
  rw [decoded, filter_mergeSort, decoded]
  · intro a b c hab hbc
    exact decide_eq_true (String.le_trans (of_decide_eq_true hab) (of_decide_eq_true hbc))
  · intro a b
    simpa using String.le_total a.1.name b.1.name
  · intro a b ha hb
    rw [beq_iff_eq] at ha hb
    rw [ha, hb]
    exact decide_eq_true (String.le_refl name)

/-- The last value that some entries give is that of the first, unless a later one gives another. -/
theorem Entries.getD_getLast?_decoded_cons (e : Key × Value) (entries : Entries) (default : α) :
    (decoded (e :: entries) name decode).getLast?.getD default =
      (decoded entries name decode).getLast?.getD
        ((decoded [e] name decode).getLast?.getD default) := by
  have hcons : decoded (e :: entries) name decode =
      decoded [e] name decode ++ decoded entries name decode := by
    unfold decoded
    rw [← List.filterMap_append, ← List.filter_append, List.singleton_append]
  rw [hcons, List.getLast?_append, Option.getD_or]

theorem Entries.decoded_singleton_of_eq {key : Key} {v : Value} {a : α} (hname : key.name = name)
    (hv : decode v = .ok a) : decoded [(key, v)] name decode = [a] := by
  simp [decoded, hname, hv, Except.toOption]

theorem Entries.decoded_singleton_of_ne {key : Key} {v : Value} (hname : key.name ≠ name) :
    decoded [(key, v)] name decode = [] := by
  simp [decoded, hname]

end Toml

namespace Config

open Toml

variable {v : Value} {entries : Entries}

def decodeSeverity (v : Value) : Except Fault Severity :=
  v.toVariant Severity.all Severity.name

/-- The settings that the configuration file of a project holds, as a TOML value. -/
def settings? (disk : Disk) (root : String) : Option Value := do
  let text ← (disk.text (Path.join root fileName)).toOption
  (← Entries.ofText? text).valueAt? tableName

def severityGiven? (disk : Disk) (root : String) : Option Severity :=
  (settings? disk root).bind (·.given? "severity" 0 decodeSeverity)

def strictKindsGiven? (disk : Disk) (root : String) : Option Bool :=
  (settings? disk root).bind (·.given? "strict_kinds" 1 Value.toBool)

theorem readEntry_eq_ok {e : Key × Value} (h : readEntry c e = .ok c') :
    c' = ⟨(Entries.decoded [e] "severity" decodeSeverity).getLast?.getD c.severity,
      (Entries.decoded [e] "strict_kinds" Value.toBool).getLast?.getD c.strictKinds⟩ := by
  obtain ⟨key, v⟩ := e
  simp only [readEntry] at h
  split at h
  · next hname =>
    obtain ⟨s, hs, hc⟩ := exists_of_bind_eq_ok h
    cases hc
    have hs : decodeSeverity v = .ok s := hs
    rw [Entries.decoded_singleton_of_eq hname hs,
      Entries.decoded_singleton_of_ne (by rw [hname]; decide)]
    rfl
  · next hseverity =>
    split at h
    · next hname =>
      obtain ⟨b, hb, hc⟩ := exists_of_bind_eq_ok h
      cases hc
      rw [Entries.decoded_singleton_of_ne hseverity, Entries.decoded_singleton_of_eq hname hb]
      rfl
    · cases h

theorem foldlM_readEntry_eq_ok (h : entries.foldlM readEntry c = .ok c') :
    c' = ⟨(entries.decoded "severity" decodeSeverity).getLast?.getD c.severity,
      (entries.decoded "strict_kinds" Value.toBool).getLast?.getD c.strictKinds⟩ := by
  induction entries generalizing c with
  | nil =>
    cases h
    rfl
  | cons e entries ih =>
    rw [List.foldlM_cons] at h
    obtain ⟨next, hnext, hrest⟩ := exists_of_bind_eq_ok h
    rw [ih hrest, readEntry_eq_ok hnext, Entries.getD_getLast?_decoded_cons e entries,
      Entries.getD_getLast?_decoded_cons e entries]

theorem ofToml_eq_ok (h : ofToml v = .ok c) :
    c = ⟨(v.given? "severity" 0 decodeSeverity).getD .error,
      (v.given? "strict_kinds" 1 Value.toBool).getD false⟩ := by
  unfold ofToml at h
  split at h
  · next entries =>
    rw [foldlM_readEntry_eq_ok h, Entries.decoded_mergeSort, Entries.decoded_mergeSort]
    rfl
  · next elements =>
    obtain ⟨severity, hseverity, h⟩ := exists_of_bind_eq_ok h
    obtain ⟨strictKinds, hstrict, h⟩ := exists_of_bind_eq_ok h
    cases h
    rw [eq_bind_of_mapM_eq_ok hseverity, eq_bind_of_mapM_eq_ok hstrict]
    rfl
  · cases h
  · cases h

theorem ofFileText_eq_ok {text : String} (h : ofFileText text = .ok c) :
    ∃ entries, Entries.ofText? text = some entries ∧
      match entries.valueAt? tableName with
      | none => c = .default
      | some v => ofToml v = .ok c := by
  unfold ofFileText at h
  split at h
  · next entries hentries =>
    refine ⟨entries, hentries, ?_⟩
    simp only at h
    split at h
    · obtain ⟨settings, hsettings, hc⟩ := exists_of_bind_eq_ok h
      cases hc
      have hread := eq_ok_of_mapError_eq_ok hsettings
      cases hvalue : entries.valueAt? tableName with
      | none =>
        rw [hvalue] at hread
        cases hread
        rfl
      | some v =>
        rw [hvalue, Option.mapM_some] at hread
        obtain ⟨c, hc, rfl⟩ := exists_of_map_eq_ok hread
        exact hc
    · cases h
  · cases h

/-- Settings that could be loaded are those that the file gives, and the defaults for the others. -/
theorem answer_load_eq_ok (h : (load root).answer disk = .ok c) :
    c = ⟨(severityGiven? disk root).getD .error, (strictKindsGiven? disk root).getD false⟩ := by
  rw [load, Query.answer_bind, Query.answer_textAt] at h
  split at h
  · next hmissing =>
    cases h
    rw [severityGiven?, strictKindsGiven?, settings?, hmissing]
    rfl
  · cases h
  · next text htext =>
    obtain ⟨entries, hentries, hc⟩ := ofFileText_eq_ok (eq_ok_of_mapError_eq_ok h)
    have hsettings : settings? disk root = entries.valueAt? tableName := by
      rw [settings?, htext]
      show (Entries.ofText? text).bind _ = _
      rw [hentries]
      rfl
    rw [severityGiven?, strictKindsGiven?, hsettings]
    cases hvalue : entries.valueAt? tableName with
    | none =>
      rw [hvalue] at hc
      exact hc
    | some v =>
      rw [hvalue] at hc
      exact ofToml_eq_ok hc

end Config

end PathAudit
